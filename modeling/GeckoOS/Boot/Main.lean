import GeckoOS.Boot.Multiboot2

/-! `multiboot2_main` and its walk over the tags of the MBI, on memory by address,
with what a well-formed MBI is. -/
namespace GeckoOS.Boot
open Lib

def bootloaderMagic : Nat := 0x36D76289

def tagTypeBootLoaderName : Nat := 2
def tagTypeBasicMeminfo : Nat := 4
def tagTypeFramebuffer : Nat := 8
def tagTypeAcpiOld : Nat := 14
def tagTypeAcpiNew : Nat := 15

/-- The global variables of multiboot2_entry.c; pointers are addresses. -/
structure Globals where
  fbAddr : Nat := 0
  fbWidth : Nat := 0
  fbHeight : Nat := 0
  fbPitch : Nat := 0
  fbBpp : Nat := 0
  memsizeGrub : Nat := 0
  acpiInfoGrub : Option Nat := none
  bootloaderInfo : Option Nat := none
  maxAddrUsed : UInt64 := 0
  deriving DecidableEq

/-- The comparison of `max_addr_used` with the end of one region. -/
def raiseMax (m : UInt64) (e : MmapEntry) : UInt64 :=
  if e.available ∧ m < e.baseAddr + e.length then e.baseAddr + e.length else m

/-- The entries that a walk reads in a tag, none unless it is a memory map. -/
def tagEntries (t : View) : Option (List MmapEntry) :=
  if t.load32 0 = tagTypeMmap then mmapEntries t (t.load32 4 + 1) 16 else some []

/-- The switch over the type of the tag at address `tag`, with the entries read there. -/
def visitTag (mem : View) (g : Globals) (v : Nat × List MmapEntry) : Globals :=
  let t := mem.shift v.1
  if t.load32 0 = tagTypeFramebuffer then
    { g with fbAddr := t.load64 8, fbWidth := t.load32 20, fbHeight := t.load32 24, fbPitch := t.load32 16,
             fbBpp := (t 28).toNat }
  else if t.load32 0 = tagTypeBasicMeminfo then { g with memsizeGrub := mul32 (t.load32 8) (t.load32 12) }
  else if t.load32 0 = tagTypeAcpiNew ∨ t.load32 0 = tagTypeAcpiOld then { g with acpiInfoGrub := some v.1 }
  else if t.load32 0 = tagTypeBootLoaderName then { g with bootloaderInfo := some v.1 }
  else if t.load32 0 = tagTypeMmap then { g with maxAddrUsed := v.2.foldl raiseMax g.maxAddrUsed }
  else g

/-- MULTIBOOT2_TAG_NEXT: the mask has 32 bits. -/
def tagNext (tag size : Nat) : Nat := (tag + size + 7) % 2^32 / 8 * 8

/-- The loop of `multiboot2_main`, with the tags it visits and the entries it reads there;
the last one is the END tag. -/
def mainLoop (mem : View) : Nat → Nat → Globals → Option (List (Nat × List MmapEntry) × Globals)
  | 0, _, _ => none
  | fuel+1, tag, g =>
    let t := mem.shift tag
    if t.load32 0 = tagTypeEnd then some ([(tag, [])], g)
    else do
      let es ← tagEntries t
      let (visits, g) ← mainLoop mem fuel (tagNext tag (t.load32 4)) (visitTag mem g (tag, es))
      return ((tag, es) :: visits, g)

/-- Another magic number stops the machine. All addresses but the first are multiples
of 8 below 2^32, so a walk of more steps does not end. -/
def multiboot2Main (mem : View) (magic mbiAddr : Nat) : Option (List (Nat × List MmapEntry) × Globals) :=
  if magic = bootloaderMagic then mainLoop mem (2^29 + 2) (mbiAddr + 8) {} else none

/-- Entries of at least 24 bytes whose regions do not overflow. -/
structure MmapOk (t : View) : Prop where
  entrySize : 24 ≤ t.load32 8
  regions : ∀ k, 16 + k * t.load32 8 < t.load32 4 →
    (mmapEntryAt (t.shift (16 + k * t.load32 8))).baseAddr.toNat +
      (mmapEntryAt (t.shift (16 + k * t.load32 8))).length.toNat < 2^64

/-- Tags one behind the other, each on the next multiple of 8, up to an END tag. -/
inductive Tags (mbi : View) (totalSize : Nat) : Nat → Prop
  | last {o : Nat} : o + 8 ≤ totalSize → (mbi.shift o).load32 0 = tagTypeEnd → 8 ≤ (mbi.shift o).load32 4 →
      Tags mbi totalSize o
  | tag {o : Nat} : (mbi.shift o).load32 0 ≠ tagTypeEnd → 8 ≤ (mbi.shift o).load32 4 →
      ((mbi.shift o).load32 0 = tagTypeMmap → MmapOk (mbi.shift o)) →
      Tags mbi totalSize (o + ((mbi.shift o).load32 4 + 7) / 8 * 8) → Tags mbi totalSize o

/-- An aligned MBI below 4 GiB. -/
structure WellFormed (mem : View) (mbiAddr : Nat) : Prop where
  aligned : mbiAddr % 8 = 0
  below : mbiAddr + (mem.shift mbiAddr).load32 0 ≤ 2^32
  tags : Tags (mem.shift mbiAddr) ((mem.shift mbiAddr).load32 0) 8

variable {mem t : View} {totalSize o mbiAddr : Nat}

/-- The loop over the entries of a tag ends. -/
private theorem mmapEntries_ends (hpos : 0 < t.load32 8) (fuel entry : Nat) (hf : t.load32 4 ≤ entry + fuel) :
    ∃ es, mmapEntries t (fuel + 1) entry = some es ∧ ∀ e ∈ es, ∃ k, entry + k * t.load32 8 < t.load32 4 ∧
      e = mmapEntryAt (t.shift (entry + k * t.load32 8)) := by
  induction fuel generalizing entry with
  | zero => exact ⟨[], by rw [mmapEntries, if_neg (by omega)], by simp⟩
  | succ fuel ih =>
    rw [mmapEntries]
    split
    · next hlt =>
      obtain ⟨es, he, hes⟩ := ih (entry + t.load32 8) (by omega)
      refine ⟨_, by rw [he, Option.map_some], fun e hmem => ?_⟩
      rcases List.mem_cons.mp hmem with rfl | hmem
      · exact ⟨0, by simpa using hlt, by simp⟩
      · obtain ⟨k, hk, rfl⟩ := hes e hmem
        have hnext : entry + t.load32 8 + k * t.load32 8 = entry + (k + 1) * t.load32 8 := by
          rw [Nat.succ_mul]
          omega
        exact ⟨k + 1, hnext ▸ hk, by rw [hnext]⟩
    · exact ⟨[], rfl, by simp⟩

/-- What is read in a tag that is in order. -/
theorem tagEntries_ends (hok : t.load32 0 = tagTypeMmap → MmapOk t) :
    ∃ es, tagEntries t = some es ∧ (t.load32 0 ≠ tagTypeMmap → es = []) ∧
      ∀ e ∈ es, e.baseAddr.toNat + e.length.toNat < 2^64 := by
  unfold tagEntries
  split
  · next hm =>
    obtain ⟨hsize, hregions⟩ := hok hm
    obtain ⟨es, he, hes⟩ := mmapEntries_ends (show 0 < t.load32 8 by omega) (t.load32 4) 16 (by omega)
    refine ⟨es, he, fun hne => absurd hm hne, fun e hmem => ?_⟩
    obtain ⟨k, hk, rfl⟩ := hes e hmem
    exact hregions k hk
  · exact ⟨[], rfl, fun _ => rfl, by simp⟩

/-- The loop over the entries that has ended does not need its fuel. -/
theorem mmapEntries_fuel {fuel fuel' entry : Nat} {es : List MmapEntry} (h : mmapEntries t fuel entry = some es)
    (hle : fuel ≤ fuel') : mmapEntries t fuel' entry = some es := by
  induction fuel generalizing fuel' entry es with
  | zero => cases h
  | succ fuel ih =>
    obtain ⟨fuel', rfl⟩ : ∃ n, fuel' = n + 1 := ⟨fuel' - 1, by omega⟩
    rw [mmapEntries] at h ⊢
    split at h
    · next hlt =>
      obtain ⟨rest, hrest, rfl⟩ := Option.map_eq_some_iff.mp h
      rw [if_pos hlt, ih hrest (by omega), Option.map_some]
    · next hlt => rwa [if_neg hlt]

theorem Tags.lt {mbi : View} (h : Tags mbi totalSize o) : o + 8 ≤ totalSize := by
  induction h with
  | last ho => exact ho
  | tag _ _ _ _ ih => omega

end GeckoOS.Boot
