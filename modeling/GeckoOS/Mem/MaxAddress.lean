import GeckoOS.Boot.Main
import GeckoOS.Mem.MemoryInit

/-! The two walks over the MBI together: `multiboot2_main` finds the end of the
highest available region, from which `initialize_memory_manager_from_mbi` computes
the number of blocks that `free_region` is limited by. Between the two the bitmap
is filled, and it can lie over the MBI. -/
namespace GeckoOS.Mem.PhysicalMem
open Lib Boot

/-- The end of a region. -/
def regionEnd (e : MmapEntry) : Nat := e.baseAddr.toNat + e.length.toNat

/-- The largest end of an available region, 0 if there is none. -/
def LargestEnd (es : List MmapEntry) (m : Nat) : Prop :=
  (∀ e ∈ es, e.available → regionEnd e ≤ m) ∧ (m = 0 ∨ ∃ e ∈ es, e.available ∧ regionEnd e = m)

/-- No block of an available region, `start_block + i` in `free_region`, is beyond the limit. -/
def NoneCutOff (es : List MmapEntry) (maxBlocks : Nat) : Prop :=
  ∀ e ∈ es, e.available → ∀ i, i * blockSize < e.length.toNat → e.baseAddr.toNat / blockSize + i < maxBlocks

/-- Rounding the end of no available region up to whole blocks overflows, or all of them are empty. -/
def RoundsUp (es : List MmapEntry) : Prop :=
  (∀ e ∈ es, e.available → regionEnd e + (blockSize - 1) < 2^64) ∨ ∀ e ∈ es, e.available → e.length.toNat = 0

variable {mem : View} {es : List MmapEntry} {visits : List (Nat × List MmapEntry)} {m : UInt64}

private theorem raiseMax_toNat (m : UInt64) {e : MmapEntry} (he : regionEnd e < 2^64) :
    (raiseMax m e).toNat = if e.available then max m.toNat (regionEnd e) else m.toNat := by
  have hsum : (e.baseAddr + e.length).toNat = regionEnd e := by
    rw [UInt64.toNat_add]
    exact Nat.mod_eq_of_lt he
  have hiff : m < e.baseAddr + e.length ↔ m.toNat < regionEnd e := by rw [UInt64.lt_iff_toNat_lt, hsum]
  unfold raiseMax
  by_cases ha : e.available
  · by_cases hlt : m.toNat < regionEnd e
    · rw [if_pos ⟨ha, hiff.mpr hlt⟩, if_pos ha, hsum, Nat.max_eq_right hlt.le]
    · rw [if_neg fun h => hlt (hiff.mp h.2), if_pos ha, Nat.max_eq_left (by omega)]
  · rw [if_neg fun h => ha h.1, if_neg ha]

/-- The loop over the entries takes the maximum. -/
private theorem foldl_raiseMax (h : ∀ e ∈ es, regionEnd e < 2^64) (m : UInt64) :
    m.toNat ≤ (es.foldl raiseMax m).toNat ∧
      (∀ e ∈ es, e.available → regionEnd e ≤ (es.foldl raiseMax m).toNat) ∧
      (es.foldl raiseMax m = m ∨ ∃ e ∈ es, e.available ∧ regionEnd e = (es.foldl raiseMax m).toNat) := by
  induction es generalizing m with
  | nil => simp
  | cons e es ih =>
    obtain ⟨hle, hall, hex⟩ := ih (fun e he => h e (List.mem_cons_of_mem _ he)) (raiseMax m e)
    have hraise := raiseMax_toNat m (h e List.mem_cons_self)
    rw [List.foldl_cons]
    refine ⟨?_, fun e' he' ha => ?_, ?_⟩
    · split at hraise <;> omega
    · rcases List.mem_cons.mp he' with rfl | he'
      · rw [if_pos ha] at hraise
        omega
      · exact hall e' he' ha
    · rcases hex with hex | ⟨e', he', ha, hend⟩
      · rw [hex]
        by_cases ha : e.available
        · rw [if_pos ha] at hraise
          rcases Nat.le_total (regionEnd e) m.toNat with hm | hm
          · exact .inl (UInt64.toNat_inj.mp (by omega))
          · exact .inr ⟨e, List.mem_cons_self, ha, by omega⟩
        · rw [if_neg ha] at hraise
          exact .inl (UInt64.toNat_inj.mp hraise)
      · exact .inr ⟨e', List.mem_cons_of_mem _ he', ha, hend⟩

/-- The other tags leave `max_addr_used` alone. -/
private theorem visitTag_maxAddrUsed (g : Globals) (v : Nat × List MmapEntry) :
    (visitTag mem g v).maxAddrUsed =
      if (mem.shift v.1).load32 0 = tagTypeMmap then v.2.foldl raiseMax g.maxAddrUsed else g.maxAddrUsed := by
  by_cases hm : (mem.shift v.1).load32 0 = tagTypeMmap
  · rw [if_pos hm, visitTag, hm]
    rfl
  · rw [if_neg hm]
    unfold visitTag
    dsimp only
    split_ifs <;> rfl

private theorem visits_maxAddrUsed (h : ∀ v ∈ visits, (mem.shift v.1).load32 0 ≠ tagTypeMmap → v.2 = [])
    (g : Globals) :
    (visits.foldl (visitTag mem) g).maxAddrUsed = (visits.flatMap Prod.snd).foldl raiseMax g.maxAddrUsed := by
  induction visits generalizing g with
  | nil => rfl
  | cons v vs ih =>
    rw [List.foldl_cons, ih (fun w hw => h w (List.mem_cons_of_mem _ hw)), List.flatMap_cons, List.foldl_append,
      visitTag_maxAddrUsed]
    split
    · rfl
    · next hm => rw [h v List.mem_cons_self hm, List.foldl_nil]

/-- Only the rounding can cut blocks off, and it does if it overflows. -/
private theorem noneCutOff_iff {m : Nat} (hm : m < 2^64) (hlarge : LargestEnd es m) :
    NoneCutOff es (add64 m (blockSize - 1) / blockSize) ↔ RoundsUp es := by
  obtain ⟨hall, hex⟩ := hlarge
  constructor
  · intro hnone
    by_contra hover
    unfold RoundsUp at hover
    simp only [not_or, not_forall] at hover
    obtain ⟨⟨e, he, ha, hend⟩, e', he', ha', hlen⟩ := hover
    have hle := hall e he ha
    have hzero : add64 m (blockSize - 1) / blockSize = 0 := by
      unfold add64 blockSize at *
      omega
    have hblock := hnone e' he' ha' 0 (by rw [Nat.zero_mul]; exact Nat.pos_of_ne_zero hlen)
    rw [hzero] at hblock
    exact absurd hblock (Nat.not_lt_zero _)
  · rintro (hround | hempty)
    · intro e he ha i hi
      have hle := hall e he ha
      have hsum : m + (blockSize - 1) < 2^64 := by
        rcases hex with rfl | ⟨e', he', ha', rfl⟩
        · decide
        · exact hround e' he' ha'
      rw [add64_eq hsum]
      unfold regionEnd at hle
      unfold blockSize at *
      omega
    · intro e he ha i hi
      rw [hempty e he ha] at hi
      omega

/-- Both walks over the loader's memory, from a tag on: no step of either leaves the
tags, though they find the next one in different ways. -/
private theorem Tags.walks {bt : BootInfo} {o : Nat} (ht : Tags (mem.shift bt.mbiAddr.toNat) bt.totalSize o)
    (hmbi : bt.mbi = mem.shift bt.mbiAddr.toNat) (ha : bt.mbiAddr.toNat % 8 = 0)
    (hb : bt.mbiAddr.toNat + bt.totalSize ≤ 2^32) (ho : o % 8 = 0) :
    ∃ visits : List (Nat × List MmapEntry),
      (∀ fuel s, bt.totalSize < o + 8 * fuel → ∃ s', bt.walkLoop bt.left fuel o s = some (visits, s')) ∧
      (∀ fuel g, bt.totalSize < o + 8 * fuel →
        mainLoop mem fuel (bt.mbiAddr.toNat + o) g = some (visits, visits.foldl (visitTag mem) g)) ∧
      ∀ v ∈ visits, ((mem.shift v.1).load32 0 ≠ tagTypeMmap → v.2 = []) ∧
        ∀ e ∈ v.2, e.baseAddr.toNat + e.length.toNat < 2^64 := by
  induction ht with
  | @last o hin hend hsize =>
    have hend' : (bt.mbi.shift o).load32 0 = tagTypeEnd := by rw [hmbi, hend]
    rw [View.shift_shift] at hend
    have hsame : ∀ g, visitTag mem g (bt.mbiAddr.toNat + o, []) = g := by
      intro g
      rw [visitTag, hend]
      rfl
    refine ⟨[(bt.mbiAddr.toNat + o, [])], fun fuel s hf => ⟨s, ?_⟩, fun fuel g hf => ?_, by simp⟩
    all_goals
      obtain ⟨fuel, rfl⟩ : ∃ n, fuel = n + 1 := ⟨fuel - 1, by omega⟩
    · rw [BootInfo.walkLoop, BootInfo.turn_left, if_neg fun h => h.2 hend']
    · rw [mainLoop, List.foldl_cons, hsame]
      exact if_pos hend
  | @tag o htype hsize hok hnext ih =>
    have hlt := hnext.lt
    have htype' : (bt.mbi.shift o).load32 0 ≠ tagTypeEnd := by rwa [hmbi]
    have hshift : bt.mbi.shift o = mem.shift (bt.mbiAddr.toNat + o) := by rw [hmbi, View.shift_shift]
    rw [View.shift_shift] at htype hsize hok hnext hlt ih
    obtain ⟨visits, hinit, hmain, hall⟩ := ih (by omega)
    obtain ⟨es, hes, hnil, hregions⟩ := tagEntries_ends hok
    have hsame : o + add32 ((mem.shift (bt.mbiAddr.toNat + o)).load32 4) 7 / 8 * 8 =
        o + ((mem.shift (bt.mbiAddr.toNat + o)).load32 4 + 7) / 8 * 8 := by
      rw [add32_eq (by omega)]
    have hsame' : tagNext (bt.mbiAddr.toNat + o) ((mem.shift (bt.mbiAddr.toNat + o)).load32 4) =
        bt.mbiAddr.toNat + (o + ((mem.shift (bt.mbiAddr.toNat + o)).load32 4 + 7) / 8 * 8) := by
      unfold tagNext
      omega
    have hentries : (if (bt.mbi.shift o).load32 0 = tagTypeMmap then
        mmapEntries (bt.mbi.shift o) (2^32 + 8 * bt.bitmapBytes + 1) 16 else some []) = some es := by
      rw [hshift]
      unfold tagEntries at hes
      split at hes
      · next hm =>
        have hfuel := View.load32_lt (mem.shift (bt.mbiAddr.toNat + o)) 4
        rw [if_pos hm]
        exact mmapEntries_fuel hes (by omega)
      · next hm =>
        rw [if_neg hm]
        exact hes
    refine ⟨(bt.mbiAddr.toNat + o, es) :: visits, fun fuel s hf => ?_, fun fuel g hf => ?_, fun v hv => ?_⟩
    · obtain ⟨fuel, rfl⟩ : ∃ n, fuel = n + 1 := ⟨fuel - 1, by omega⟩
      obtain ⟨s', hrest⟩ := hinit fuel (es.foldl freeEntry s) (by omega)
      have hturn : bt.turn bt.left o s = .goesOn es (es.foldl freeEntry s)
          (o + ((mem.shift (bt.mbiAddr.toNat + o)).load32 4 + 7) / 8 * 8) := by
        rw [BootInfo.turn_left, if_pos ⟨by omega, htype'⟩, hentries, ← hsame, hshift]
      refine ⟨s', ?_⟩
      rw [BootInfo.walkLoop, hturn]
      dsimp only
      rw [hrest, Option.map_some]
    · obtain ⟨fuel, rfl⟩ : ∃ n, fuel = n + 1 := ⟨fuel - 1, by omega⟩
      rw [mainLoop, if_neg htype, hes, hsame', Option.bind_eq_bind, Option.bind_some, hmain fuel _ (by omega)]
      rfl
    · rcases List.mem_cons.mp hv with rfl | hv
      · exact ⟨hnil, hregions⟩
      · exact hall v hv

/-- On every well-formed MBI `multiboot2_main` comes to its END tag with the largest end of
an available region in `max_addr_used`. The walk behind the `memset` visits the same tags
and entries exactly if the bitmap leads no turn of it another way, and the limit of
`free_region` cuts no block off exactly if rounding that end up does not overflow. -/
theorem boot_walks_agree {mbiAddr : UInt32} (hw : WellFormed mem mbiAddr.toNat) (kernelStart kernelEnd : UInt64)
    (words : Nat → BitVec 32) :
    ∃ visits g, multiboot2Main mem bootloaderMagic mbiAddr.toNat = some (visits, g) ∧
      let bt : BootInfo := ⟨mbiAddr, mem.shift mbiAddr.toNat, kernelStart, kernelEnd, g.maxAddrUsed⟩
      bt.entries = some (visits.flatMap Prod.snd) ∧
      LargestEnd (visits.flatMap Prod.snd) g.maxAddrUsed.toNat ∧
      ((∃ s, bt.walk bt.seen words = some (visits, s)) ↔ bt.Undisturbed words) ∧
      (NoneCutOff (visits.flatMap Prod.snd) bt.maxBlocks ↔ RoundsUp (visits.flatMap Prod.snd)) := by
  obtain ⟨haligned, hbelow, htags⟩ := hw
  have hwalks : ∀ m : UInt64, ∃ visits, _ := fun m =>
    @Tags.walks mem ⟨mbiAddr, mem.shift mbiAddr.toNat, kernelStart, kernelEnd, m⟩ 8 htags rfl haligned
      hbelow (by decide)
  obtain ⟨visits, -, hmain, hvisits⟩ := hwalks 0
  have hlt : ∀ e ∈ visits.flatMap Prod.snd, regionEnd e < 2^64 := by
    intro e he
    obtain ⟨v, hv, hev⟩ := List.mem_flatMap.mp he
    exact (hvisits v hv).2 e hev
  have hmax := visits_maxAddrUsed (fun v hv => (hvisits v hv).1) {}
  obtain ⟨-, hall, hex⟩ := foldl_raiseMax hlt (0 : UInt64)
  have hlarge : LargestEnd (visits.flatMap Prod.snd) (visits.foldl (visitTag mem) {}).maxAddrUsed.toNat := by
    rw [hmax]
    exact ⟨hall, hex.imp_left fun h => congrArg UInt64.toNat h⟩
  -- the second walk over the loader's memory makes the same visits whatever the number of blocks is
  obtain ⟨visits', hinit, hmain', -⟩ := hwalks (visits.foldl (visitTag mem) {}).maxAddrUsed
  have hfuel : ∀ n, (mem.shift mbiAddr.toNat).load32 0 <
    8 + 8 * ((mem.shift mbiAddr.toNat).load32 0 + n) := by omega
  have hbound : (mem.shift mbiAddr.toNat).load32 0 < 8 + 8 * (2^29 + 2) := by omega
  obtain rfl : visits' = visits := by
    have h := (hmain _ {} (hfuel 1)).symm.trans (hmain' _ {} (hfuel 1))
    exact (Prod.mk.inj (Option.some.inj h)).1.symm
  have hwalk : ∀ ws, ∃ s, BootInfo.walk ⟨mbiAddr, mem.shift mbiAddr.toNat, kernelStart, kernelEnd,
      (visits'.foldl (visitTag mem) {}).maxAddrUsed⟩ (BootInfo.left _) ws = some (visits', s) := fun ws =>
    hinit _ _ (by rw [Nat.add_assoc]; exact hfuel _)
  refine ⟨visits', visits'.foldl (visitTag mem) {}, ?_, ?_, hlarge, ?_,
    noneCutOff_iff (UInt64.toNat_lt _) hlarge⟩
  · rw [multiboot2Main, if_pos rfl]
    exact hmain _ _ hbound
  · obtain ⟨s, hs⟩ := hwalk fun _ => 0#32
    rw [BootInfo.entries, hs, Option.map_some]
  · obtain ⟨s, hs⟩ := hwalk words
    exact BootInfo.walk_same_iff hs

/-! ### An MBI clear of the bitmap, and one under it -/

namespace BootInfo
variable {bt : BootInfo} {words : Nat → BitVec 32} {s : State} {tag fuel entry : Nat}

/-- No byte of the MBI, nor of the entry that the last one of a tag may run on into, lies under the bitmap. -/
def Apart (bt : BootInfo) : Prop := ∀ i < bt.totalSize + 16,
  ¬ (bt.bitmapBase ≤ bt.mbiAddr.toNat + i ∧ bt.mbiAddr.toNat + i < bt.bitmapBase + bt.bitmapBytes)

theorem apart_of_before (h : bt.mbiAddr.toNat + bt.totalSize + 16 ≤ bt.bitmapBase) : bt.Apart := by
  rintro i hi ⟨hlo, -⟩
  omega

theorem Apart.seen (h : bt.Apart) (s : State) {i : Nat} (hi : i < bt.totalSize + 16) :
    bt.seen s i = bt.mbi i := if_neg (h i hi)

theorem Apart.load32 (h : bt.Apart) (s : State) {k : Nat} (hk : tag + k + 4 ≤ bt.totalSize + 16) :
    ((bt.seen s).shift tag).load32 k = (bt.mbi.shift tag).load32 k :=
  View.load32_congr fun i hi => h.seen s (by omega)

private theorem Apart.entryLoop (h : bt.Apart)
    (hin : tag + (bt.mbi.shift tag).load32 4 + 8 ≤ bt.totalSize) (s : State) :
    entryLoop bt.seen tag fuel entry s = entryLoop bt.left tag fuel entry s := by
  induction fuel generalizing entry s with
  | zero => rfl
  | succ fuel ih =>
    have hsize : ∀ s, ((bt.seen s).shift tag).load32 4 = (bt.mbi.shift tag).load32 4 :=
      fun s => h.load32 s (by omega)
    rw [BootInfo.entryLoop, BootInfo.entryLoop, hsize]
    change _ = if entry < (bt.mbi.shift tag).load32 4 then _ else _
    split
    · next hlt =>
      have hentry : mmapEntryAt (((bt.seen s).shift tag).shift entry) =
        mmapEntryAt ((bt.mbi.shift tag).shift entry) := by
        have h32 : (((bt.seen s).shift tag).shift entry).load32 16 =
          ((bt.mbi.shift tag).shift entry).load32 16 :=
          View.load32_congr fun i hi => h.seen s (by omega)
        have h64 : ∀ k ≤ 8, (((bt.seen s).shift tag).shift entry).load64 k =
          ((bt.mbi.shift tag).shift entry).load64 k :=
          fun k hk => View.load64_congr fun i hi => h.seen s (by omega)
        rw [mmapEntryAt, mmapEntryAt, h32, h64 0 (by decide), h64 8 (by decide)]
      dsimp only
      rw [hentry, h.load32 _ (by omega), ih]
      rfl
    · rfl

/-- An MBI that is clear of the bitmap is read as the loader left it. -/
theorem undisturbed_of_apart (ht : Tags bt.mbi bt.totalSize 8) (h : bt.Apart) : bt.Undisturbed words := by
  have hplaces : ∀ tag s, bt.Comes words tag s → Tags bt.mbi bt.totalSize tag := by
    intro tag s hc
    induction hc with
    | start => exact ht
    | @next tag s es s' next hc hturn ih =>
      rw [turn_left] at hturn
      cases ih with
      | last hin hend hsize =>
        rw [if_neg fun h => h.2 hend] at hturn
        cases hturn
      | tag htype hsize hok hnext =>
        have hlt := hnext.lt
        split at hturn
        · split at hturn
          · obtain ⟨-, -, rfl⟩ := Turn.goesOn.inj hturn
            have htotal : bt.totalSize < 2^32 := View.load32_lt ..
            rw [add32_eq (by omega)]
            exact hnext
          · cases hturn
        · cases hturn
  intro tag s hc
  have hin := (hplaces tag s hc).lt
  have htype : ((bt.seen s).shift tag).load32 0 = (bt.mbi.shift tag).load32 0 := h.load32 s (by omega)
  have hsize : ∀ s, ((bt.seen s).shift tag).load32 4 = (bt.mbi.shift tag).load32 4 :=
    fun s => h.load32 s (by omega)
  cases hplaces tag s hc with
  | last _ hend _ =>
    rw [turn_left, if_neg fun h => h.2 hend]
    unfold turn
    dsimp only
    rw [htype, if_neg fun h => h.2 hend]
  | tag _ _ _ hnext =>
    have hlt := hnext.lt
    unfold turn
    simp only [htype, hsize, left]
    rw [h.entryLoop (by omega)]
    rfl

/-- Where the first tag lies under the bitmap the walk reads 0xFF there, and stays there for good. -/
theorem walk_under_bitmap (hin : 8 < bt.totalSize) (hlo : bt.bitmapBase ≤ bt.mbiAddr.toNat + 8)
    (hhi : bt.mbiAddr.toNat + 16 ≤ bt.bitmapBase + bt.bitmapBytes) : bt.walk bt.seen words = none := by
  have hbyte : ∀ i < 8, bt.seen (bt.filled words) (8 + i) = 0xFF := by
    intro i hi
    rw [seen, if_pos ⟨by omega, by omega⟩]
    exact mapByte_fillBytes words (by omega)
  have hword : ∀ k, k + 4 ≤ 8 → ((bt.seen (bt.filled words)).shift 8).load32 k = 0xFFFFFFFF := by
    intro k hk
    have hb : ∀ i, i < 8 → (bt.seen (bt.filled words)).shift 8 i = 0xFF := fun i hi => by
      rw [View.shift]
      exact hbyte i hi
    rw [View.load32, View.load16, View.load16, hb k (by omega), hb (k+1) (by omega), hb (k+2) (by omega),
      hb (k+2+1) (by omega)]
    rfl
  have hnext : add32 0xFFFFFFFF 7 / 8 * 8 = 0 := by norm_num [add32]
  have hturn : bt.turn bt.seen 8 (bt.filled words) = .goesOn [] (bt.filled words) 8 := by
    unfold turn
    dsimp only
    rw [hword 0 (by omega), if_pos ⟨hin, by decide⟩, if_neg (by decide)]
    dsimp only
    rw [hword 4 (by omega), hnext, Nat.add_zero]
  have hloop : ∀ fuel, bt.walkLoop bt.seen fuel 8 (bt.filled words) = none := by
    intro fuel
    induction fuel with
    | zero => rfl
    | succ fuel ih =>
      rw [walkLoop, hturn]
      dsimp only
      rw [ih, Option.map_none]
  exact hloop _

end BootInfo

/-- An MBI at address 4096 whose memory map has one available region. -/
def regionMbi (base length : Nat) : View := fun i =>
  (bytes32 56 ++ bytes32 0 ++ (bytes32 tagTypeMmap ++ bytes32 40 ++ bytes32 24 ++ bytes32 0) ++
    (bytes32 base ++ bytes32 (base / 2^32) ++ bytes32 length ++ bytes32 (length / 2^32) ++
      bytes32 memoryAvailable ++
      bytes32 0) ++ (bytes32 tagTypeEnd ++ bytes32 8)).getD (i - 4096) 0

private theorem regionMbi_totalSize (base length : Nat) :
    ((regionMbi base length).shift 4096).load32 0 = 56 := by
  rfl

private theorem regionMbi_wellFormed {base length : Nat}
    (h : regionEnd (mmapEntryAt ((regionMbi base length).shift 4120)) < 2^64) :
    WellFormed (regionMbi base length) 4096 where
  aligned := rfl
  below := by
    change 4096 + 56 ≤ 2^32
    decide
  tags := by
    have htotal := regionMbi_totalSize base length
    have htype : (((regionMbi base length).shift 4096).shift 8).load32 0 = tagTypeMmap := by rfl
    have hsize : (((regionMbi base length).shift 4096).shift 8).load32 4 = 40 := by rfl
    have hentry : (((regionMbi base length).shift 4096).shift 8).load32 8 = 24 := by rfl
    have hend : (((regionMbi base length).shift 4096).shift 48).load32 0 = tagTypeEnd := by rfl
    have hendSize : (((regionMbi base length).shift 4096).shift 48).load32 4 = 8 := by rfl
    have hlast : Tags ((regionMbi base length).shift 4096) 56 48 := .last (by decide) hend hendSize.ge
    rw [htotal]
    refine .tag (by rw [htype]; decide) (by rw [hsize]; decide) (fun _ => ⟨hentry.ge, fun k hk => ?_⟩)
      (by rw [hsize]; exact hlast)
    rw [hsize, hentry] at hk
    obtain rfl : k = 0 := by omega
    rw [Nat.zero_mul, View.shift_shift, View.shift_shift]
    exact h

private theorem regionMbi_undisturbed {bt : BootInfo} {base length : Nat} {words : Nat → BitVec 32}
    (hmbi : bt.mbi = (regionMbi base length).shift 4096) (hbefore : bt.mbiAddr.toNat + 72 ≤ bt.bitmapBase)
    (h : regionEnd (mmapEntryAt ((regionMbi base length).shift 4120)) < 2^64) : bt.Undisturbed words := by
  have htotal : bt.totalSize = 56 := by rw [BootInfo.totalSize, hmbi, regionMbi_totalSize]
  have htags := (regionMbi_wellFormed h).tags
  rw [← hmbi] at htags
  exact BootInfo.undisturbed_of_apart htags (BootInfo.apart_of_before (by omega))

/-- A region of 127 MiB from 1 MiB on, and a kernel there with its bitmap behind it. -/
theorem boot_walks_agree_region :
    ∃ visits g s, multiboot2Main (regionMbi 0x100000 0x7F00000) bootloaderMagic 4096 = some (visits, g) ∧
      LargestEnd (visits.flatMap Prod.snd) g.maxAddrUsed.toNat ∧
      let bt : BootInfo := ⟨4096, (regionMbi 0x100000 0x7F00000).shift 4096, 0x100000, 0x108000, g.maxAddrUsed⟩
      bt.walk bt.seen (fun _ => 0#32) = some (visits, s) ∧
      NoneCutOff (visits.flatMap Prod.snd) bt.maxBlocks := by
  have hw : WellFormed (regionMbi 0x100000 0x7F00000) (4096 : UInt32).toNat :=
    regionMbi_wellFormed (by decide +kernel)
  obtain ⟨visits, g, hmain, -, hlarge, hsame, hnone⟩ := boot_walks_agree hw 0x100000 0x108000 fun _ => 0#32
  have hvisits : multiboot2Main (regionMbi 0x100000 0x7F00000) bootloaderMagic 4096 =
      some ([(4104, [⟨0x100000, 0x7F00000, 1⟩]), (4144, [])], { maxAddrUsed := 0x8000000 }) := by decide +kernel
  obtain ⟨rfl, rfl⟩ := Prod.mk.inj (Option.some.inj (hmain.symm.trans hvisits))
  have hbelow : BootInfo.Undisturbed ⟨4096, (regionMbi 0x100000 0x7F00000).shift 4096, 0x100000,
    0x108000, 0x8000000⟩
      fun _ => 0#32 :=
    regionMbi_undisturbed (by dsimp only) (by decide +kernel) (by decide +kernel)
  obtain ⟨s, hs⟩ := hsame.mpr hbelow
  refine ⟨_, _, s, hmain, hlarge, hs, hnone.mpr (.inl ?_)⟩
  intro e he _
  simp only [List.flatMap_cons, List.flatMap_nil, List.append_nil, List.mem_singleton] at he
  subst he
  decide

/-- A region that ends in the last block of the address space: the number of blocks
is 0, and all of the region is cut off. -/
theorem top_region_cut_off :
    WellFormed (regionMbi 0xFFFFFFFFFFFFF000 0xFFF) 4096 ∧
      ∃ visits g, multiboot2Main (regionMbi 0xFFFFFFFFFFFFF000 0xFFF) bootloaderMagic 4096 = some (visits, g) ∧
        ¬ NoneCutOff (visits.flatMap Prod.snd) (BootInfo.maxBlocks
          ⟨4096, (regionMbi 0xFFFFFFFFFFFFF000 0xFFF).shift 4096, 0, 0, g.maxAddrUsed⟩) := by
  have hmain : multiboot2Main (regionMbi 0xFFFFFFFFFFFFF000 0xFFF) bootloaderMagic 4096 =
      some ([(4104, [⟨0xFFFFFFFFFFFFF000, 0xFFF, 1⟩]), (4144, [])],
        { maxAddrUsed := 0xFFFFFFFFFFFFFFFF }) := by decide +kernel
  refine ⟨regionMbi_wellFormed (by decide +kernel), _, _, hmain, fun hnone => ?_⟩
  have hblock := hnone ⟨0xFFFFFFFFFFFFF000, 0xFFF, 1⟩ (by simp) rfl 0 (by decide)
  revert hblock
  decide +kernel

end GeckoOS.Mem.PhysicalMem
