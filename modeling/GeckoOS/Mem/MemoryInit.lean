import GeckoOS.Boot.Multiboot2
import GeckoOS.Mem.BlockBitmap

/-! `initialize_memory_manager_from_mbi`: which blocks it leaves clear. -/
namespace GeckoOS.Mem.PhysicalMem
open Lib Boot State

/-- What the initialisation reads, the MBI as the loader left it. -/
structure BootInfo where
  mbiAddr : UInt32
  mbi : View
  kernelStart : UInt64
  kernelEnd : UInt64
  maxAddrUsed : UInt64

/-- `memset(memory_map, 0xFF, bytes)`: the last word may be filled in part. -/
def fillBytes (words : Nat → BitVec 32) (bytes : Nat) : Nat → BitVec 32 := fun i =>
  words i ||| BitVec.ofNat 32 (2^(8 * min 4 (bytes - 4*i)) - 1)

/-- The byte of the bitmap at offset `j`. -/
def State.mapByte (s : State) (j : Nat) : UInt8 := .ofNat ((s.memoryMap (j / 4)).toNat / 2^(8 * (j % 4)))

def freeEntry (s : State) (e : MmapEntry) : State :=
  if e.available then s.freeRegion e.baseAddr e.length else s

/-- What one turn of the loop over the tags does. -/
inductive Turn where
  | stops
  | hangs
  | goesOn (entries : List MmapEntry) (s : State) (next : Nat)

namespace BootInfo
variable (bt : BootInfo)

def totalSize : Nat := bt.mbi.load32 0
def maxBlocks : Nat := add64 bt.maxAddrUsed.toNat (blockSize - 1) / blockSize
def bitmapBytes : Nat := (bt.maxBlocks + 7) / 8
def bitmapBase : Nat := add64 bt.kernelEnd.toNat (blockSize - 1) / blockSize * blockSize

/-- Behind the `memset`, with `words` for what the memory at the bitmap's place held. -/
def filled (words : Nat → BitVec 32) : State := ⟨fillBytes words bt.bitmapBytes, bt.maxBlocks, bt.maxBlocks⟩

/-- The MBI as the loader left it, and as it is read behind the `memset`, where the
bitmap may lie over it. -/
def left (_ : State) : View := bt.mbi
def seen (s : State) : View := fun i =>
  if bt.bitmapBase ≤ bt.mbiAddr.toNat + i ∧ bt.mbiAddr.toNat + i < bt.bitmapBase + bt.bitmapBytes then
    s.mapByte (bt.mbiAddr.toNat + i - bt.bitmapBase)
  else bt.mbi i

/-- The loop over the entries of the tag at offset `tag`, with the entries that it meets.
Its turns move on below 2^32 or clear a bit of the bitmap, or are the same for good. -/
def entryLoop (look : State → View) (tag : Nat) : Nat → Nat → State → Option (List MmapEntry × State)
  | 0, _, _ => none
  | fuel+1, entry, s =>
    if entry < ((look s).shift tag).load32 4 then
      let e := mmapEntryAt (((look s).shift tag).shift entry)
      let s := freeEntry s e
      (entryLoop look tag fuel (entry + ((look s).shift tag).load32 8) s).map fun (es, s) => (e :: es, s)
    else some ([], s)

def turn (look : State → View) (tag : Nat) (s : State) : Turn :=
  let t := (look s).shift tag
  if tag < bt.totalSize ∧ t.load32 0 ≠ tagTypeEnd then
    match if t.load32 0 = tagTypeMmap then entryLoop look tag
      (2^32 + 8 * bt.bitmapBytes + 1) 16 s else some ([], s) with
    | some (es, s) => .goesOn es s (tag + add32 (((look s).shift tag).load32 4) 7 / 8 * 8)
    | none => .hangs
  else .stops

/-- The walk from offset `tag` on: the tags that it visits, with the entries it meets
there, and at the end the place where it stops. -/
def walkLoop (look : State → View) : Nat → Nat → State → Option (List (Nat × List MmapEntry) × State)
  | 0, _, _ => none
  | fuel+1, tag, s =>
    match bt.turn look tag s with
    | .stops => some ([(bt.mbiAddr.toNat + tag, [])], s)
    | .hangs => none
    | .goesOn es s next =>
      (walkLoop look fuel next s).map fun (vs, s) => ((bt.mbiAddr.toNat + tag, es) :: vs, s)

/-- Here too a turn moves on inside the MBI or clears a bit, or the walk does not end. -/
def walk (look : State → View) (words : Nat → BitVec 32) : Option (List (Nat × List MmapEntry) × State) :=
  bt.walkLoop look (bt.totalSize + 8 * bt.bitmapBytes + 2) 8 (bt.filled words)

/-- The memory map that the loader left, and the one that the walk meets. -/
def entries : Option (List MmapEntry) := (bt.walk bt.left fun _ => 0#32).map fun w => w.1.flatMap Prod.snd
def met (words : Nat → BitVec 32) : Option (List MmapEntry) :=
  (bt.walk bt.seen words).map fun w => w.1.flatMap Prod.snd

end BootInfo

/-- AP_TRAMPOLINE_ADDR and AP_TRAMPOLINE_SIZE. -/
def apTrampolineAddr : UInt64 := 0x8000
def apTrampolineSize : UInt64 := 0x1000

/-- The reservations that follow the walk. Block 0 is counted once more even if
it was not free. -/
def reserveAll (bt : BootInfo) (s : State) : State :=
  let s := s.reserveRegion bt.kernelStart (bt.kernelEnd - bt.kernelStart)
  let s := s.reserveRegion (.ofNat bt.mbiAddr.toNat) (.ofNat bt.totalSize)
  let s := s.reserveRegion (.ofNat bt.bitmapBase) (.ofNat bt.bitmapBytes)
  let s := (s.setBlock 0).withUsed (add64 s.usedBlocks 1)
  s.reserveRegion apTrampolineAddr apTrampolineSize

/-- `none` is a walk that does not end. -/
def initializeMemoryManager (bt : BootInfo) (words : Nat → BitVec 32) : Option State :=
  (bt.walk bt.seen words).map fun w => reserveAll bt w.2

/-- The state after a walk that has met these entries. -/
def afterWalk (bt : BootInfo) (words : Nat → BitVec 32) (entries : List MmapEntry) : State :=
  reserveAll bt (entries.foldl freeEntry ⟨fillBytes words bt.bitmapBytes, bt.maxBlocks, bt.maxBlocks⟩)

namespace BootInfo
variable {bt : BootInfo} {look : State → View} {words : Nat → BitVec 32} {tag fuel entry next : Nat}
  {s s' : State}
  {es : List MmapEntry} {visits : List (Nat × List MmapEntry)}

theorem entryLoop_state (h : entryLoop look tag fuel entry s = some (es, s')) : s' = es.foldl freeEntry s := by
  induction fuel generalizing entry s es with
  | zero => cases h
  | succ fuel ih =>
    rw [entryLoop] at h
    split at h
    · obtain ⟨⟨rest, s''⟩, hrest, heq⟩ := Option.map_eq_some_iff.mp h
      obtain ⟨rfl, rfl⟩ := Prod.mk.inj heq
      rw [List.foldl_cons]
      exact ih hrest
    · obtain ⟨rfl, rfl⟩ := Prod.mk.inj (Option.some.inj h)
      rfl

/-- A turn frees the entries that it meets. -/
theorem turn_state (h : bt.turn look tag s = .goesOn es s' next) : s' = es.foldl freeEntry s := by
  unfold turn at h
  dsimp only at h
  split at h
  · split at h
    · next es₁ s₁ heq =>
      obtain ⟨rfl, rfl, -⟩ := Turn.goesOn.inj h
      split at heq
      · exact entryLoop_state heq
      · obtain ⟨rfl, rfl⟩ := Prod.mk.inj (Option.some.inj heq)
        rfl
    · cases h
  · cases h

theorem walkLoop_state (h : bt.walkLoop look fuel tag s = some (visits, s')) :
    s' = (visits.flatMap Prod.snd).foldl freeEntry s := by
  induction fuel generalizing tag s visits with
  | zero => cases h
  | succ fuel ih =>
    rw [walkLoop] at h
    split at h
    · obtain ⟨rfl, rfl⟩ := Prod.mk.inj (Option.some.inj h)
      rfl
    · cases h
    · next es s₁ next hturn =>
      obtain ⟨⟨rest, s₂⟩, hrest, heq⟩ := Option.map_eq_some_iff.mp h
      obtain ⟨rfl, rfl⟩ := Prod.mk.inj heq
      rw [ih hrest, turn_state hturn, List.flatMap_cons, List.foldl_append]

/-! ### The two memories -/

/-- The places that the walk over the loader's memory comes to, each with the bitmap as it is then. -/
inductive Comes (bt : BootInfo) (words : Nat → BitVec 32) : Nat → State → Prop
  | start : Comes bt words 8 (bt.filled words)
  | next {tag : Nat} {s : State} {es : List MmapEntry} {s' : State} {next : Nat} : Comes bt words tag s →
      bt.turn bt.left tag s = .goesOn es s' next → Comes bt words next s'

/-- There the bitmap's bytes over the MBI lead the loop the way that the loader's would. -/
def Undisturbed (bt : BootInfo) (words : Nat → BitVec 32) : Prop :=
  ∀ tag s, bt.Comes words tag s → bt.turn bt.seen tag s = bt.turn bt.left tag s

private theorem walkLoop_head (h : bt.walkLoop look fuel tag s = some (visits, s')) :
    ∃ es rest, visits = (bt.mbiAddr.toNat + tag, es) :: rest := by
  cases fuel with
  | zero => cases h
  | succ fuel =>
    rw [walkLoop] at h
    split at h
    · obtain ⟨rfl, -⟩ := Prod.mk.inj (Option.some.inj h)
      exact ⟨_, _, rfl⟩
    · cases h
    · obtain ⟨⟨rest, s₂⟩, -, heq⟩ := Option.map_eq_some_iff.mp h
      obtain ⟨rfl, -⟩ := Prod.mk.inj heq
      exact ⟨_, _, rfl⟩

private theorem walkLoop_undisturbed (hu : bt.Undisturbed words) (hc : bt.Comes words tag s) :
    bt.walkLoop bt.seen fuel tag s = bt.walkLoop bt.left fuel tag s := by
  induction fuel generalizing tag s with
  | zero => rfl
  | succ fuel ih =>
    rw [walkLoop, walkLoop, hu tag s hc]
    cases hturn : bt.turn bt.left tag s with
    | stops => rfl
    | hangs => rfl
    | goesOn es s' next =>
      dsimp only
      rw [ih (hc.next hturn)]

/-- Then the walk goes as over the loader's memory. -/
theorem walk_undisturbed (hu : bt.Undisturbed words) : bt.walk bt.seen words = bt.walk bt.left words :=
  walkLoop_undisturbed hu .start

/-- From each place on: with the same visits the turns are the same. -/
private theorem turns_same {s₁ s₂ : State} (hleft : bt.walkLoop bt.left fuel tag s = some (visits, s₁))
    (hseen : bt.walkLoop bt.seen fuel tag s = some (visits, s₂)) :
    bt.turn bt.seen tag s = bt.turn bt.left tag s ∧ ∀ es s' next, bt.turn bt.left tag s = .goesOn es s' next →
      ∃ fuel' rest, bt.walkLoop bt.left fuel' next s' = some (rest, s₁) ∧
      bt.walkLoop bt.seen fuel' next s' = some (rest, s₂) := by
  cases fuel with
  | zero => cases hleft
  | succ fuel =>
    rw [walkLoop] at hleft hseen
    cases hl : bt.turn bt.left tag s with
    | hangs =>
      rw [hl] at hleft
      cases hleft
    | stops =>
      refine ⟨?_, fun es s' next h => by cases h⟩
      rw [hl] at hleft
      obtain ⟨rfl, -⟩ := Prod.mk.inj (Option.some.inj hleft)
      cases hs : bt.turn bt.seen tag s with
      | stops => rfl
      | hangs =>
        rw [hs] at hseen
        cases hseen
      | goesOn es s' next =>
        -- the walk would visit another place
        rw [hs] at hseen
        obtain ⟨⟨rest, s₃⟩, hrest, heq⟩ := Option.map_eq_some_iff.mp hseen
        obtain ⟨es', rest', rfl⟩ := walkLoop_head hrest
        cases (Prod.mk.inj heq).1
    | goesOn es s' next =>
      rw [hl] at hleft
      obtain ⟨⟨rest, s₃⟩, hrest, heq⟩ := Option.map_eq_some_iff.mp hleft
      obtain ⟨rfl, rfl⟩ := Prod.mk.inj heq
      obtain ⟨es₁, rest₁, rfl⟩ := walkLoop_head hrest
      cases hs : bt.turn bt.seen tag s with
      | hangs =>
        rw [hs] at hseen
        cases hseen
      | stops =>
        rw [hs] at hseen
        cases (Prod.mk.inj (Option.some.inj hseen)).1
      | goesOn es₂ s₄ next₂ =>
        rw [hs] at hseen
        obtain ⟨⟨rest₂, s₅⟩, hrest₂, heq₂⟩ := Option.map_eq_some_iff.mp hseen
        obtain ⟨hvisits, rfl⟩ := Prod.mk.inj heq₂
        obtain ⟨es₃, rest₃, rfl⟩ := walkLoop_head hrest₂
        simp only [List.cons.injEq, Prod.mk.injEq, Nat.add_left_cancel_iff, true_and] at hvisits
        obtain ⟨rfl, ⟨rfl, rfl⟩, rfl⟩ := hvisits
        obtain rfl : s₄ = s' := (turn_state hs).trans (turn_state hl).symm
        refine ⟨rfl, fun es' s'' next' h => ?_⟩
        obtain ⟨rfl, rfl, rfl⟩ := Turn.goesOn.inj h
        exact ⟨fuel, _, hrest, hrest₂⟩

/-- Where the walk over the loader's memory ends, the walk behind the `memset` makes
the same visits exactly if no turn of it is led another way. -/
theorem walk_same_iff {s₁ : State} (h : bt.walk bt.left words = some (visits, s₁)) :
    (∃ s, bt.walk bt.seen words = some (visits, s)) ↔ bt.Undisturbed words := by
  constructor
  · rintro ⟨s₂, hseen⟩
    have hall : ∀ tag s, bt.Comes words tag s → ∃ fuel rest, bt.walkLoop bt.left fuel tag s = some (rest, s₁) ∧
        bt.walkLoop bt.seen fuel tag s = some (rest, s₂) := by
      intro tag s hc
      induction hc with
      | start => exact ⟨_, _, h, hseen⟩
      | next hc hturn ih =>
        obtain ⟨fuel, rest, hl, hs⟩ := ih
        exact (turns_same hl hs).2 _ _ _ hturn
    intro tag s hc
    obtain ⟨fuel, rest, hl, hs⟩ := hall tag s hc
    exact (turns_same hl hs).1
  · intro hu
    exact ⟨s₁, (walk_undisturbed hu).trans h⟩

theorem undisturbed_of_same (hends : (bt.walk bt.left words).isSome)
    (hsame : (bt.walk bt.seen words).map Prod.fst = (bt.walk bt.left words).map Prod.fst) :
      bt.Undisturbed words := by
  obtain ⟨⟨visits, s₁⟩, hl⟩ := Option.isSome_iff_exists.mp hends
  rw [hl] at hsame
  obtain ⟨⟨_, s₂⟩, hs, rfl⟩ := Option.map_eq_some_iff.mp hsame
  exact (walk_same_iff hl).mp ⟨s₂, hs⟩

/-! ### The loader's memory -/

theorem entryLoop_left (s : State) : entryLoop bt.left tag fuel entry s =
    (mmapEntries (bt.mbi.shift tag) fuel entry).map fun es => (es, es.foldl freeEntry s) := by
  induction fuel generalizing entry s with
  | zero => rfl
  | succ fuel ih =>
    rw [entryLoop, mmapEntries]
    change (if entry < (bt.mbi.shift tag).load32 4 then _ else _) = _
    split
    · change Option.map _ (entryLoop bt.left tag fuel (entry + (bt.mbi.shift tag).load32 8)
        (freeEntry s (mmapEntryAt ((bt.mbi.shift tag).shift entry)))) = _
      rw [ih, Option.map_map, Option.map_map]
      rfl
    · rfl

/-- A turn over the loader's memory. -/
theorem turn_left (s : State) : bt.turn bt.left tag s =
    if tag < bt.totalSize ∧ (bt.mbi.shift tag).load32 0 ≠ tagTypeEnd then
      match if (bt.mbi.shift tag).load32 0 = tagTypeMmap then
          mmapEntries (bt.mbi.shift tag) (2^32 + 8 * bt.bitmapBytes + 1) 16 else some [] with
      | some es => .goesOn es (es.foldl freeEntry s) (tag + add32 ((bt.mbi.shift tag).load32 4) 7 / 8 * 8)
      | none => .hangs
    else .stops := by
  unfold turn
  rw [entryLoop_left]
  change (if tag < bt.totalSize ∧ (bt.mbi.shift tag).load32 0 ≠ tagTypeEnd then _ else _) = _
  split
  · by_cases hm : (bt.mbi.shift tag).load32 0 = tagTypeMmap
    · have hm' : ((bt.left s).shift tag).load32 0 = tagTypeMmap := hm
      rw [if_pos hm, if_pos hm']
      cases mmapEntries (bt.mbi.shift tag) (2^32 + 8 * bt.bitmapBytes + 1) 16 with
      | none => rfl
      | some es => rfl
    · have hm' : ¬ ((bt.left s).shift tag).load32 0 = tagTypeMmap := hm
      rw [if_neg hm, if_neg hm']
      rfl
  · rfl

/-- What the loop visits there does not depend on the bitmap. -/
private theorem walkLoop_left (fuel tag : Nat) (s s' : State) :
    (bt.walkLoop bt.left fuel tag s).map Prod.fst = (bt.walkLoop bt.left fuel tag s').map Prod.fst := by
  induction fuel generalizing tag s s' with
  | zero => rfl
  | succ fuel ih =>
    rw [walkLoop, walkLoop, turn_left, turn_left]
    by_cases hgo : tag < bt.totalSize ∧ (bt.mbi.shift tag).load32 0 ≠ tagTypeEnd
    · rw [if_pos hgo, if_pos hgo]
      cases (if (bt.mbi.shift tag).load32 0 = tagTypeMmap then
          mmapEntries (bt.mbi.shift tag) (2^32 + 8 * bt.bitmapBytes + 1) 16 else some []) with
      | none => rfl
      | some es =>
        have hrest := ih (tag + add32 ((bt.mbi.shift tag).load32 4) 7 / 8 * 8) (es.foldl freeEntry s)
          (es.foldl freeEntry s')
        have hcons := congrArg (Option.map ((bt.mbiAddr.toNat + tag, es) :: ·)) hrest
        rw [Option.map_map, Option.map_map] at hcons
        dsimp only
        rw [Option.map_map, Option.map_map]
        exact hcons
    · rw [if_neg hgo, if_neg hgo]
      rfl

theorem entries_eq (words : Nat → BitVec 32) :
    bt.entries = (bt.walk bt.left words).map fun w => w.1.flatMap Prod.snd := by
  have hvisits : (bt.walk bt.left fun _ => 0#32).map Prod.fst = (bt.walk bt.left words).map Prod.fst :=
    walkLoop_left (bt.totalSize + 8 * bt.bitmapBytes + 2) 8 (bt.filled fun _ => 0#32) (bt.filled words)
  have h := congrArg (Option.map (List.flatMap Prod.snd)) hvisits
  rw [Option.map_map, Option.map_map] at h
  exact h

/-- Undisturbed, the walk meets the memory map of the loader. -/
theorem met_undisturbed (hu : bt.Undisturbed words) : bt.met words = bt.entries := by
  rw [met, walk_undisturbed hu, entries_eq words]

end BootInfo

theorem initialize_eq_afterWalk (bt : BootInfo) (words : Nat → BitVec 32) :
    initializeMemoryManager bt words = (bt.met words).map (afterWalk bt words) := by
  rw [initializeMemoryManager, BootInfo.met]
  cases h : bt.walk bt.seen words with
  | none => rfl
  | some w =>
    simp only [Option.map_some, Option.some.injEq]
    rw [BootInfo.walkLoop_state h]
    rfl

/-- The blocks that `reserve_region` and `free_region` take a region to be. -/
def InRegion (base size : UInt64) (b : Nat) : Prop :=
  base.toNat / blockSize ≤ b ∧ b < base.toNat / blockSize + add64 size.toNat (blockSize - 1) / blockSize

instance (base size : UInt64) : DecidablePred (InRegion base size) :=
  fun b => inferInstanceAs (Decidable (_ ≤ b ∧ b < _))

/-- Blocks of an available entry among these. -/
def Offered (entries : List MmapEntry) (b : Nat) : Prop :=
  ∃ e ∈ entries, e.available ∧ InRegion e.baseAddr e.length b

namespace BootInfo
variable (bt : BootInfo)

/-- Blocks of an available entry of the map. -/
def Available (b : Nat) : Prop := ∃ es, bt.entries = some es ∧ Offered es b

/-- Blocks of the kernel, of the MBI and of the bitmap. -/
def Taken (b : Nat) : Prop :=
  InRegion bt.kernelStart (bt.kernelEnd - bt.kernelStart) b ∨
  InRegion (.ofNat bt.mbiAddr.toNat) (.ofNat bt.totalSize) b ∨
  InRegion (.ofNat bt.bitmapBase) (.ofNat bt.bitmapBytes) b

/-- Blocks reserved after the map was read. -/
def Reserved (b : Nat) : Prop := bt.Taken b ∨ b = 0 ∨ InRegion apTrampolineAddr apTrampolineSize b

end BootInfo

variable {s : State} {b : Nat}

@[simp] theorem reserveRegion_maxBlocks (s : State) (base size : UInt64) :
    (s.reserveRegion base size).maxBlocks = s.maxBlocks := reserveLoop_maxBlocks ..

@[simp] theorem freeRegion_maxBlocks (s : State) (base size : UInt64) :
    (s.freeRegion base size).maxBlocks = s.maxBlocks := freeLoop_maxBlocks ..

theorem testBlock_reserveRegion (hm : s.maxBlocks ≤ 2^32) (hb : b < s.maxBlocks) (base size : UInt64) :
    (s.reserveRegion base size).testBlock b = true ↔ s.testBlock b = true ∨ InRegion base size b := by
  rw [reserveRegion, testBlock_reserveLoop hm]
  simp [InRegion, hb]

theorem testBlock_freeRegion (hm : s.maxBlocks ≤ 2^32) (hb : b < s.maxBlocks) (base size : UInt64) :
    (s.freeRegion base size).testBlock b = true ↔ s.testBlock b = true ∧ ¬ InRegion base size b := by
  rw [freeRegion, testBlock_freeLoop hm]
  simp only [InRegion, hb, and_true, Bool.and_eq_true, Bool.not_eq_true', decide_eq_false_iff_not]

private theorem freeEntry_maxBlocks (s : State) (e : MmapEntry) : (freeEntry s e).maxBlocks = s.maxBlocks := by
  unfold freeEntry
  split <;> simp

theorem freeEntries_maxBlocks (s : State) (es : List MmapEntry) :
    (es.foldl freeEntry s).maxBlocks = s.maxBlocks := by
  induction es generalizing s with
  | nil => rfl
  | cons e es ih => rw [List.foldl_cons, ih, freeEntry_maxBlocks]

private theorem testBlock_freeEntry (hm : s.maxBlocks ≤ 2^32) (hb : b < s.maxBlocks) (e : MmapEntry) :
    (freeEntry s e).testBlock b = true ↔
      s.testBlock b = true ∧ ¬ (e.available ∧ InRegion e.baseAddr e.length b) := by
  unfold freeEntry
  split
  · next h => simp [testBlock_freeRegion hm hb, h]
  · next h => simp [h]

private theorem testBlock_freeEntries (es : List MmapEntry) (hm : s.maxBlocks ≤ 2^32) (hb : b < s.maxBlocks) :
    (es.foldl freeEntry s).testBlock b = true ↔
      s.testBlock b = true ∧ ¬ ∃ e ∈ es, e.available ∧ InRegion e.baseAddr e.length b := by
  induction es generalizing s with
  | nil => simp
  | cons e es ih =>
    rw [List.foldl_cons, ih (by rwa [freeEntry_maxBlocks]) (by rwa [freeEntry_maxBlocks]),
      testBlock_freeEntry hm hb, List.exists_mem_cons_iff, not_or, and_assoc]

private theorem reserveAll_maxBlocks (bt : BootInfo) (s : State) :
    (reserveAll bt s).maxBlocks = s.maxBlocks := by
  simp [reserveAll]

private theorem testBlock_reserveAll (bt : BootInfo) (hm : s.maxBlocks ≤ 2^32) (hb : b < s.maxBlocks) :
    (reserveAll bt s).testBlock b = true ↔ s.testBlock b = true ∨ bt.Reserved b := by
  unfold reserveAll
  dsimp only
  rw [testBlock_reserveRegion (by simpa using hm) (by simpa using hb), testBlock_withUsed,
    testBlock_setBlock (by simp; omega), Bool.or_eq_true,
    testBlock_reserveRegion (by simpa using hm) (by simpa using hb),
    testBlock_reserveRegion (by simpa using hm) (by simpa using hb), testBlock_reserveRegion hm hb]
  simp only [BootInfo.Reserved, BootInfo.Taken, decide_eq_true_eq, or_assoc]

theorem testBlock_fillBytes (words : Nat → BitVec 32) {bytes max used : Nat} (h : b < 8 * bytes) :
    (State.mk (fillBytes words bytes) max used).testBlock b = true := by
  rw [testBlock_eq]
  have hlt : b % 32 < 8 * min 4 (bytes - 4 * (b / 32)) := by omega
  simp only [fillBytes, BitVec.getLsbD_or, BitVec.getLsbD_ofNat, Nat.testBit_two_pow_sub_one]
  simp [hlt, Nat.mod_lt]

/-- The `memset` leaves 0xFF in every byte of the bitmap. -/
theorem mapByte_fillBytes (words : Nat → BitVec 32) {bytes max used j : Nat} (h : j < bytes) :
    (State.mk (fillBytes words bytes) max used).mapByte j = 0xFF := by
  have hbyte : (fillBytes words bytes (j / 4)).toNat / 2^(8 * (j % 4)) % 2^8 = 2^8 - 1 := by
    apply Nat.eq_of_testBit_eq
    intro i
    rw [Nat.testBit_mod_two_pow, Nat.testBit_div_two_pow, Nat.testBit_two_pow_sub_one, BitVec.testBit_toNat]
    by_cases hi : i < 8
    · have hin : i + 8 * (j % 4) < 8 * min 4 (bytes - 4 * (j / 4)) := by omega
      have hlt : i + 8 * (j % 4) < 32 := by omega
      simp [fillBytes, BitVec.getLsbD_ofNat, Nat.testBit_two_pow_sub_one, hi, hin, hlt]
    · simp [hi]
  apply UInt8.toNat_inj.mp
  rw [State.mapByte, UInt8.toNat_ofNat', hbyte]
  rfl

theorem initialize_maxBlocks {bt : BootInfo} {words : Nat → BitVec 32}
    (h : initializeMemoryManager bt words = some s) : s.maxBlocks = bt.maxBlocks := by
  rw [initialize_eq_afterWalk] at h
  obtain ⟨es, -, rfl⟩ := Option.map_eq_some_iff.mp h
  rw [afterWalk, reserveAll_maxBlocks, freeEntries_maxBlocks]

/-- After the initialisation a block is clear exactly if an available entry that the
walk met covers it, even in part, and no reservation does. -/
theorem testBlock_afterInit {bt : BootInfo} {words : Nat → BitVec 32} {es : List MmapEntry}
    (hm : bt.maxBlocks ≤ 2^32)
    (hb : b < bt.maxBlocks) : (afterWalk bt words es).testBlock b = true ↔ ¬ Offered es b ∨ bt.Reserved b := by
  have hfill : b < 8 * bt.bitmapBytes := by unfold BootInfo.bitmapBytes; omega
  rw [afterWalk, testBlock_reserveAll bt (by rwa [freeEntries_maxBlocks]) (by rwa [freeEntries_maxBlocks]),
    testBlock_freeEntries es hm hb, testBlock_fillBytes words hfill, Offered]
  simp

end GeckoOS.Mem.PhysicalMem
