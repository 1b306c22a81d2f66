import GeckoOS.Mem.UsableRam
import Mathlib.Data.Nat.ModEq

/-! The count of used blocks after the initialisation. The walk over the map counts
down with every block that it finds set, and `set_block(0)` is counted unseen. -/
namespace GeckoOS.Mem.PhysicalMem
open Lib Boot State

/-- The blocks that `free_region` goes through, below `max`. -/
def regionBlocks (max : Nat) (base size : UInt64) : List Nat :=
  List.range' (base.toNat / blockSize)
    (min (add64 size.toNat (blockSize - 1) / blockSize) (max - base.toNat / blockSize))

/-- The blocks that the walk goes through, in its order. -/
def walkedBlocks (max : Nat) (entries : List MmapEntry) : List Nat :=
  entries.flatMap fun e => if e.available then regionBlocks max e.baseAddr e.length else []

/-- With the latest block in front: how often a block from 2^32 on came behind
another one with the same low 32 bits. -/
def aliasedFrees : List Nat → Nat
  | [] => 0
  | d :: earlier => (if 2^32 ≤ d ∧ d % 2^32 ∈ earlier.map (· % 2^32) then 1 else 0) + aliasedFrees earlier

/-- What is known after the blocks `done` were gone through, the latest in front. -/
structure Freed (s : State) (done : List Nat) : Prop where
  high : s.HighSet
  below : s.usedBlocks < 2^64
  clear : ∀ c < s.maxBlocks, s.testBlock c = false ↔ c ∈ done.map (· % 2^32)
  count : s.usedBlocks + aliasedFrees done ≡ s.setCount [MOD 2^64]

variable {s : State} {done : List Nat} {b : Nat}

theorem aliasedFrees_low (h : ∀ d ∈ done, d < 2^32) : aliasedFrees done = 0 := by
  induction done with
  | nil => rfl
  | cons d done ih =>
    have hd := h d List.mem_cons_self
    rw [aliasedFrees, ih fun d hd => h d (List.mem_cons_of_mem _ hd), if_neg (by omega)]

/-- Clearing a clear bit. -/
private theorem setCount_unsetBlock_clear (hb : b < s.maxBlocks) (hc : s.testBlock b = false) :
    (s.unsetBlock b).setCount = s.setCount := by
  unfold State.setCount
  rw [unsetBlock_maxBlocks]
  congr 1
  funext c
  rw [testBlock_unsetBlock hb]
  by_cases h : c = b
  · simp [h, hc]
  · simp [h]

/-- One block of the loop that is found set. -/
private theorem Freed.unset (h : Freed s done) (hb : b < s.maxBlocks) (ht : s.testBlock b = true) :
    Freed ((s.unsetBlock (b % 2^32)).withUsed (sub64 s.usedBlocks 1)) (b :: done) := by
  have hlow : b % 2^32 < s.maxBlocks := Nat.lt_of_le_of_lt (Nat.mod_le b (2^32)) hb
  have hcount := h.count
  refine ⟨h.high.unset hb _, ?_, fun c hc => ?_, ?_⟩
  · rw [withUsed_usedBlocks]
    unfold sub64
    exact Nat.mod_lt _ (by decide)
  · rw [withUsed_maxBlocks, unsetBlock_maxBlocks] at hc
    rw [testBlock_withUsed, testBlock_unsetBlock hlow, List.map_cons, List.mem_cons, ← h.clear c hc]
    cases s.testBlock c <;> simp
  · rw [setCount_withUsed, withUsed_usedBlocks, aliasedFrees]
    unfold sub64
    unfold Nat.ModEq at hcount ⊢
    cases hbit : s.testBlock (b % 2^32) with
    | true =>
      have hset := setCount_unsetBlock hlow hbit
      have hnew : b % 2^32 ∉ done.map (· % 2^32) := fun hm => by
        rw [(h.clear _ hlow).mpr hm] at hbit
        cases hbit
      rw [if_neg fun hm => hnew hm.2]
      omega
    | false =>
      -- the block itself is set, so its number is not the one that is cleared
      have hhigh : 2^32 ≤ b := by
        by_contra hlt
        rw [Nat.mod_eq_of_lt (by omega), ht] at hbit
        cases hbit
      rw [setCount_unsetBlock_clear hlow hbit, if_pos ⟨hhigh, (h.clear _ hlow).mp hbit⟩]
      omega

/-- One block of the loop that is clear already. -/
private theorem Freed.skip (h : Freed s done) (hb : b < s.maxBlocks) (ht : ¬ s.testBlock b = true) :
    Freed s (b :: done) := by
  have hlow : b < 2^32 := by
    by_contra hge
    exact ht (h.high b (by omega) hb)
  have hmem : b ∈ done.map (· % 2^32) := (h.clear b hb).mp (by simpa using ht)
  refine ⟨h.high, h.below, fun c hc => ?_, ?_⟩
  · rw [h.clear c hc, List.map_cons, List.mem_cons, Nat.mod_eq_of_lt hlow]
    constructor
    · exact .inr
    · rintro (rfl | hm)
      · exact hmem
      · exact hm
  · rw [aliasedFrees, if_neg (by omega), Nat.zero_add]
    exact h.count

theorem Freed.freeLoop (h : Freed s done) (b n : Nat) :
    Freed (s.freeLoop b n) ((List.range' b (min n (s.maxBlocks - b))).reverse ++ done) := by
  induction n generalizing s b done with
  | zero =>
    rw [Nat.zero_min]
    exact h
  | succ n ih =>
    rw [State.freeLoop]
    split
    · next hb =>
      have hmin : min (n+1) (s.maxBlocks - b) = min n (s.maxBlocks - (b+1)) + 1 := by omega
      rw [hmin, List.range'_succ, List.reverse_cons, List.append_assoc, List.singleton_append]
      split
      · next ht =>
        have hrest := ih (h.unset hb ht) (b+1)
        rwa [withUsed_maxBlocks, unsetBlock_maxBlocks] at hrest
      · next ht => exact ih (h.skip hb ht) (b+1)
    · next hb =>
      rw [Nat.sub_eq_zero_of_le (by omega), Nat.min_zero]
      exact h

theorem Freed.freeEntries (h : Freed s done) (es : List MmapEntry) :
    Freed (es.foldl freeEntry s) ((walkedBlocks s.maxBlocks es).reverse ++ done) := by
  induction es generalizing s done with
  | nil => exact h
  | cons e es ih =>
    have hentry : Freed (freeEntry s e)
      ((if e.available then regionBlocks s.maxBlocks e.baseAddr e.length else []).reverse ++ done) := by
      unfold freeEntry
      split
      · exact h.freeLoop _ _
      · exact h
    have hmax : (freeEntry s e).maxBlocks = s.maxBlocks := freeEntries_maxBlocks s [e]
    have hrest := ih hentry
    rw [hmax] at hrest
    rw [List.foldl_cons, walkedBlocks, List.flatMap_cons, List.reverse_append, List.append_assoc]
    exact hrest

/-! The reservations keep the difference between the counter and the set bits. -/

/-- The counter is behind the number of set bits by `k` and ahead of it by `e`. -/
structure Differs (s : State) (k e : Nat) : Prop where
  high : s.HighSet
  below : s.usedBlocks < 2^64
  count : s.usedBlocks + k ≡ s.setCount + e [MOD 2^64]

private theorem Differs.reserveRegion {k e : Nat} (h : Differs s k e) (base size : UInt64) :
    Differs (s.reserveRegion base size) k e := by
  obtain ⟨j, hset, hused⟩ := reserveLoop_counts (s := s) (b := base.toNat / blockSize)
    (n := add64 size.toNat (blockSize - 1) / blockSize) (fun c _ _ hc hhigh => h.high c hhigh hc) h.below
  have hcount := h.count
  refine ⟨(h.high.reserveRegion base size).1, ?_, ?_⟩
  · rw [State.reserveRegion, hused]
    unfold add64
    exact Nat.mod_lt _ (by decide)
  · rw [State.reserveRegion, hused, hset]
    unfold Nat.ModEq add64 at *
    omega

/-- Setting a bit that is set already, or is none of the map. -/
private theorem setCount_setBlock_set (h : b < s.maxBlocks → s.testBlock b = true) :
    (s.setBlock b).setCount = s.setCount := by
  by_cases hb : b < s.maxBlocks
  · unfold State.setCount
    rw [setBlock_maxBlocks]
    congr 1
    funext c
    rw [testBlock_setBlock hb]
    by_cases hc : c = b
    · simp [hc, h hb]
    · simp [hc]
  · rw [setBlock, if_neg hb]

/-- `set_block(0); used_blocks++`, with block 0 clear and with it set. -/
private theorem Differs.setFirst {k : Nat} (h : Differs s k 0) :
    (0 < s.maxBlocks ∧ s.testBlock 0 = false → Differs ((s.setBlock 0).withUsed (add64 s.usedBlocks 1)) k 0) ∧
    (¬ (0 < s.maxBlocks ∧ s.testBlock 0 = false) →
      Differs ((s.setBlock 0).withUsed (add64 s.usedBlocks 1)) k 1) := by
  have hcount := h.count
  have hlt : add64 s.usedBlocks 1 < 2^64 := by
    unfold add64
    exact Nat.mod_lt _ (by decide)
  have hhigh : ((s.setBlock 0).withUsed (add64 s.usedBlocks 1)).HighSet := by
    by_cases hb : 0 < s.maxBlocks
    · exact h.high.set hb _
    · intro c hc hm
      rw [withUsed_maxBlocks, setBlock_maxBlocks] at hm
      omega
  constructor
  · rintro ⟨hb, hclear⟩
    refine ⟨hhigh, by rwa [withUsed_usedBlocks], ?_⟩
    rw [withUsed_usedBlocks, setCount_withUsed, setCount_setBlock hb hclear]
    unfold Nat.ModEq add64 at *
    omega
  · intro hset
    refine ⟨hhigh, by rwa [withUsed_usedBlocks], ?_⟩
    rw [withUsed_usedBlocks, setCount_withUsed,
      setCount_setBlock_set fun hb => by simpa using fun hc => hset ⟨hb, hc⟩]
    unfold Nat.ModEq add64 at *
    omega

namespace BootInfo
variable (bt : BootInfo) (es : List MmapEntry)

/-- Block 0 is clear when `set_block(0)` is reached: the walk has cleared it, and it
is not a block of the kernel, the MBI or the bitmap. -/
def ZeroClear : Prop := 0 < bt.maxBlocks ∧ (∃ d ∈ walkedBlocks bt.maxBlocks es, d % 2^32 = 0) ∧ ¬ bt.Taken 0

/-- Block 0 is counted when it becomes used, and no block is counted down twice (or
one block is, which makes up for block 0). -/
def CountsOnce : Prop :=
  (bt.ZeroClear es ∧ aliasedFrees (walkedBlocks bt.maxBlocks es).reverse ≡ 0 [MOD 2^64]) ∨
  (¬ bt.ZeroClear es ∧ aliasedFrees (walkedBlocks bt.maxBlocks es).reverse ≡ 1 [MOD 2^64])

end BootInfo

theorem lt_of_mem_walkedBlocks {max d : Nat} {es : List MmapEntry} (h : d ∈ walkedBlocks max es) : d < max := by
  obtain ⟨e, -, hd⟩ := List.mem_flatMap.mp h
  split at hd
  · rw [regionBlocks, List.mem_range'_1] at hd
    omega
  · cases hd

/-- Below 2^32 blocks it is all about block 0. -/
theorem countsOnce_iff_small {bt : BootInfo} {es : List MmapEntry} (hm : bt.maxBlocks ≤ 2^32) :
    bt.CountsOnce es ↔ bt.ZeroClear es := by
  have hzero : aliasedFrees (walkedBlocks bt.maxBlocks es).reverse = 0 :=
    aliasedFrees_low fun d hd => Nat.lt_of_lt_of_le (lt_of_mem_walkedBlocks (List.mem_reverse.mp hd)) hm
  rw [BootInfo.CountsOnce, hzero]
  constructor
  · rintro (⟨hclear, -⟩ | ⟨-, hone⟩)
    · exact hclear
    · exact absurd hone (by decide)
  · exact fun hclear => .inl ⟨hclear, rfl⟩

theorem filled_freed (bt : BootInfo) (words : Nat → BitVec 32) :
    Freed ⟨fillBytes words bt.bitmapBytes, bt.maxBlocks, bt.maxBlocks⟩ [] := by
  have hset : ∀ c < bt.maxBlocks,
    (State.mk (fillBytes words bt.bitmapBytes) bt.maxBlocks bt.maxBlocks).testBlock c = true :=
    fun c hc => filled_highSet bt words hc
  have hmax : bt.maxBlocks < 2^64 := Nat.lt_of_le_of_lt (Nat.div_le_self _ _)
    (by unfold add64; exact Nat.mod_lt _ (by decide))
  refine ⟨fun c _ hc => hset c hc, hmax, fun c hc => by simp [hset c hc], ?_⟩
  have hall : State.setCount ⟨fillBytes words bt.bitmapBytes, bt.maxBlocks, bt.maxBlocks⟩ = bt.maxBlocks := by
    rw [State.setCount, Nat.count_iff_forall.mpr fun {c} hc => hset c hc]
  rw [hall]
  rfl

/-- Behind all reservations the counter is ahead by one exactly if block 0 was not clear. -/
private theorem afterWalk_differs (bt : BootInfo) (words : Nat → BitVec 32) (es : List MmapEntry) :
    (bt.ZeroClear es → Differs (afterWalk bt words es)
      (aliasedFrees (walkedBlocks bt.maxBlocks es).reverse) 0) ∧
    (¬ bt.ZeroClear es → Differs (afterWalk bt words es)
      (aliasedFrees (walkedBlocks bt.maxBlocks es).reverse) 1) := by
  have hfreed := (filled_freed bt words).freeEntries es
  rw [List.append_nil] at hfreed
  have hmax := freeEntries_maxBlocks (State.mk (fillBytes words bt.bitmapBytes) bt.maxBlocks bt.maxBlocks) es
  dsimp only at hfreed hmax
  unfold afterWalk reserveAll
  generalize es.foldl freeEntry _ = s at hfreed hmax ⊢
  have hwalk : Differs s (aliasedFrees (walkedBlocks bt.maxBlocks es).reverse) 0 :=
    ⟨hfreed.high, hfreed.below, hfreed.count⟩
  have h1 := hwalk.reserveRegion bt.kernelStart (bt.kernelEnd - bt.kernelStart)
  have h2 := h1.reserveRegion (.ofNat bt.mbiAddr.toNat) (.ofNat bt.totalSize)
  have h3 := h2.reserveRegion (.ofNat bt.bitmapBase) (.ofNat bt.bitmapBytes)
  have hzero : ∀ hb : 0 < s.maxBlocks, (((s.reserveRegion bt.kernelStart
    (bt.kernelEnd - bt.kernelStart)).reserveRegion
      (.ofNat bt.mbiAddr.toNat) (.ofNat bt.totalSize)).reserveRegion (.ofNat bt.bitmapBase)
        (.ofNat bt.bitmapBytes)).testBlock 0 =
        true ↔ s.testBlock 0 = true ∨ bt.Taken 0 := by
    intro hb
    rw [(h2.high.reserveRegion _ _).2 0 (by simpa using hb),
      (h1.high.reserveRegion _ _).2 0 (by simpa using hb), (hwalk.high.reserveRegion _ _).2 0 hb,
      BootInfo.Taken, or_assoc, or_assoc]
  have hiff : bt.ZeroClear es ↔ 0 < s.maxBlocks ∧ ¬ (s.testBlock 0 = true ∨ bt.Taken 0) := by
    rw [BootInfo.ZeroClear, hmax, not_or, Bool.not_eq_true]
    refine and_congr_right fun hb => and_congr_left fun _ => ?_
    rw [hfreed.clear 0 (hmax ▸ hb), List.mem_map]
    simp only [List.mem_reverse]
  obtain ⟨hclear, hset⟩ := h3.setFirst
  constructor
  · intro hz
    obtain ⟨hb, hnot⟩ := hiff.mp hz
    refine (hclear ⟨by simpa using hb, ?_⟩).reserveRegion _ _
    rw [← Bool.not_eq_true, hzero hb]
    exact hnot
  · intro hz
    refine (hset fun hb => hz (hiff.mpr ?_)).reserveRegion _ _
    have hb0 : 0 < s.maxBlocks := by simpa using hb.1
    refine ⟨hb0, fun htaken => ?_⟩
    rw [(hzero hb0).mpr htaken] at hb
    cases hb.2

/-- After the initialisation, whatever entries the walk has met, `used_blocks` is the
number of set bits exactly if each change of a bit was counted once. -/
theorem initialised_count_iff (bt : BootInfo) (words : Nat → BitVec 32) (es : List MmapEntry) :
    ((afterWalk bt words es).usedBlocks = (afterWalk bt words es).setCount ↔ bt.CountsOnce es) ∧
    initializeMemoryManager bt words = (bt.met words).map (afterWalk bt words) := by
  refine ⟨?_, initialize_eq_afterWalk bt words⟩
  obtain ⟨hclear, hset⟩ := afterWalk_differs bt words es
  have hle : (afterWalk bt words es).setCount < 2^64 := by
    have hmax : (afterWalk bt words es).maxBlocks = bt.maxBlocks := by
      simp [afterWalk, reserveAll, freeEntries_maxBlocks]
    have hbound : bt.maxBlocks < 2^64 := (filled_freed bt words).below
    have := (afterWalk bt words es).setCount_le
    omega
  rw [BootInfo.CountsOnce]
  generalize aliasedFrees (walkedBlocks bt.maxBlocks es).reverse = k at *
  by_cases hz : bt.ZeroClear es
  · obtain ⟨-, hbelow, hcount⟩ := hclear hz
    simp only [hz, true_and, not_true_eq_false, false_and, or_false]
    unfold Nat.ModEq at hcount ⊢
    omega
  · obtain ⟨-, hbelow, hcount⟩ := hset hz
    simp only [hz, false_and, not_false_eq_true, true_and, false_or]
    unfold Nat.ModEq at hcount ⊢
    omega

/-- A map whose low memory begins at 0x1000: block 0 is not freed, and counted twice. -/
theorem first_block_counted_twice :
    ∃ s, initializeMemoryManager (sampleBoot [(0x1000, 0x9E000), (0x100000, 0x20000)] 0x108000 0x120000)
        (fun _ => 0#32) = some s ∧ s.usedBlocks ≠ s.setCount := by
  have hc : (initializeMemoryManager (sampleBoot [(0x1000, 0x9E000), (0x100000, 0x20000)] 0x108000 0x120000)
      (fun _ => 0#32)).map (fun s => decide (s.usedBlocks = s.setCount + 1)) = some true := by decide +kernel
  obtain ⟨s, hs, hcount⟩ := Option.map_eq_some_iff.mp hc
  have hone := of_decide_eq_true hcount
  exact ⟨s, hs, by omega⟩

end GeckoOS.Mem.PhysicalMem
