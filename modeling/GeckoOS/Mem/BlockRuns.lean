import GeckoOS.Lib.Runs
import GeckoOS.Mem.BlockBitmap
import Mathlib.Data.Set.Lattice
import Mathlib.Order.CompletePartialOrder

/-! Whole runs of the block allocator, with the list of runs that have been
handed out and not yet given back as ghost state. -/
namespace GeckoOS.Mem.PhysicalMem
open Lib State

/-- The calls a kernel makes after initialisation. -/
inductive Call where
  | allocateBlocks (numBlocks : UInt32)
  | deinitializeMemoryRegion (base size : UInt64)
  | freeBlocks (address : Nat) (numBlocks : UInt32)

/-- Allocator state and the live allocations, as pairs of pointer and length. -/
structure Ledger where
  state : State
  live : List (Nat × UInt32)

/-- One call. A free must match a live allocation; a NULL result allocates nothing. -/
def Ledger.Step (l : Ledger) : Call → Ledger → Prop
  | .allocateBlocks n, l' =>
    let r := l.state.allocateBlocks n
    l' = ⟨r.2, if r.1 = 0 then l.live else (r.1, n) :: l.live⟩
  | .deinitializeMemoryRegion base size, l' =>
    l' = ⟨l.state.deinitializeMemoryRegion base size, l.live⟩
  | .freeBlocks a n, l' =>
    (a, n) ∈ l.live ∧ l' = ⟨l.state.freeBlocks a n, l.live.erase (a, n)⟩

/-- The block numbers of an allocation. -/
def blocksOf (r : Nat × UInt32) : Set Nat := {b | r.1 / blockSize ≤ b ∧ b < r.1 / blockSize + r.2.toNat}

/-- The counter is the number of set bits, and live runs are disjoint, set and inside the map. -/
structure Ledger.Inv (l : Ledger) : Prop where
  bound : l.state.maxBlocks < 2^31
  counted : l.state.usedBlocks = l.state.setCount
  aligned : ∀ r ∈ l.live, r.1 / blockSize * blockSize = r.1
  inside : ∀ r ∈ l.live, r.1 / blockSize + r.2.toNat ≤ l.state.maxBlocks
  set : ∀ r ∈ l.live, ∀ b ∈ blocksOf r, l.state.testBlock b = true
  disjoint : l.live.Pairwise fun r r' => Disjoint (blocksOf r) (blocksOf r')

/-- Everything `allocate_blocks` does: either nothing, or the lowest run is set
and counted, and the pointer is that of its first block. -/
theorem allocateBlocks_found {s : State} (hm : s.maxBlocks < 2^31) (n : UInt32) :
    s.allocateBlocks n = (0, s) ∨
      ∃ b, s.LowestRun n.toNat b ∧ b + n.toNat ≤ s.maxBlocks ∧
        s.allocateBlocks n = (b * blockSize, (s.setRun b n.toNat).withUsed (add64 s.usedBlocks n.toNat)) := by
  unfold allocateBlocks
  split
  · exact .inl rfl
  · rcases findFirstFreeBlocks_spec hm n.toNat with he | ⟨b, he, hb⟩
    · exact .inl (by simp [he])
    · right
      have hfull := hb.fullWord
      have hb31 : b < 2^31 := by omega
      have hend : b + n.toNat ≤ s.maxBlocks := by
        rcases Nat.eq_zero_or_pos n.toNat with hz | hp
        · omega
        · have := (hb.free (n.toNat - 1) (by omega)).1
          omega
      refine ⟨b, hb, hend, ?_⟩
      have hne : ((b : Nat) : Int) ≠ -1 := by omega
      simp only [he, hne, if_false]
      rw [u32_natCast (by omega), u64_natCast (by omega), Nat.mod_eq_of_lt (by unfold blockSize; omega)]

/-- A correctly counted map has room in the counter for every run that is found. -/
theorem allocateBlocks_cases {s : State} (hm : s.maxBlocks < 2^31) (hc : s.usedBlocks = s.setCount)
    (n : UInt32) :
    s.allocateBlocks n = (0, s) ∨
      ∃ b, s.LowestRun n.toNat b ∧ b + n.toNat ≤ s.maxBlocks ∧
        s.allocateBlocks n = (b * blockSize, (s.setRun b n.toNat).withUsed (s.usedBlocks + n.toNat)) := by
  have hle := s.setCount_le
  rcases allocateBlocks_found hm n with he | ⟨b, hb, hend, he⟩
  · exact .inl he
  · rw [add64_eq (by omega)] at he
    exact .inr ⟨b, hb, hend, he⟩

private theorem inv_allocate {l : Ledger} (hi : l.Inv) (n : UInt32) :
    Ledger.Inv ⟨(l.state.allocateBlocks n).2,
      if (l.state.allocateBlocks n).1 = 0 then l.live else ((l.state.allocateBlocks n).1, n) :: l.live⟩ := by
  have hm : l.state.maxBlocks ≤ 2^32 := by have := hi.bound; omega
  rcases allocateBlocks_cases hi.bound hi.counted n with he | ⟨b, hb, hend, he⟩
  · simpa [he] using hi
  · rw [he]
    have hbit := testBlock_setRun hm hend
    have hcnt := setCount_setRun hm hb.free
    have hdiv : b * blockSize / blockSize = b := Nat.mul_div_cancel _ (by decide)
    have hold : ∀ r ∈ l.live, ∀ c ∈ blocksOf r,
        ((l.state.setRun b n.toNat).withUsed (l.state.usedBlocks + n.toNat)).testBlock c = true := by
      intro r hr c hcr
      simp [hbit, hi.set r hr c hcr]
    have hsub : ∀ r ∈ (if b * blockSize = 0 then l.live else (b * blockSize, n) :: l.live),
        r = (b * blockSize, n) ∨ r ∈ l.live := by
      intro r hr
      split at hr
      · exact .inr hr
      · simpa using hr
    refine ⟨by simpa using hi.bound, by simp [hcnt, hi.counted], ?_, ?_, ?_, ?_⟩
    · intro r hr
      rcases hsub r hr with rfl | hr
      · rw [hdiv]
      · exact hi.aligned r hr
    · intro r hr
      rcases hsub r hr with rfl | hr
      · simpa [hdiv] using hend
      · simpa using hi.inside r hr
    · intro r hr
      rcases hsub r hr with rfl | hr
      · intro c hc
        have hc' : b ≤ c ∧ c < b + n.toNat := by simpa [blocksOf, hdiv] using hc
        simp [hbit, hc']
      · exact hold r hr
    · -- the new run was clear, a live run is set, so they cannot meet
      split
      · exact hi.disjoint
      · refine List.pairwise_cons.mpr ⟨fun r hr => ?_, hi.disjoint⟩
        rw [Set.disjoint_left]
        intro c hc hcr
        have hc' : b ≤ c ∧ c < b + n.toNat := by simpa [blocksOf, hdiv] using hc
        have hclear := (hb.free (c - b) (by omega)).2
        rw [show b + (c - b) = c by omega, hi.set r hr c hcr] at hclear
        cases hclear

private theorem inv_deinitialize {l : Ledger} (hi : l.Inv) (base size : UInt64) :
    Ledger.Inv ⟨l.state.deinitializeMemoryRegion base size, l.live⟩ := by
  have hm : l.state.maxBlocks ≤ 2^32 := by have := hi.bound; omega
  unfold deinitializeMemoryRegion reserveRegion
  refine ⟨by simpa using hi.bound, reserveLoop_counted hm hi.counted _ _, hi.aligned,
    by simpa using hi.inside, ?_, hi.disjoint⟩
  intro r hr c hc
  rw [testBlock_reserveLoop hm, hi.set r hr c hc]
  rfl

/-- Giving back a run inside the map clears exactly its bits. -/
theorem freeBlocks_eq {s : State} (hm : s.maxBlocks < 2^31) {a : Nat} {n : UInt32}
    (hin : a / blockSize + n.toNat ≤ s.maxBlocks) :
    s.freeBlocks a n =
      (s.unsetRun (a / blockSize) n.toNat).withUsed (sub64 s.usedBlocks n.toNat) := by
  unfold freeBlocks
  generalize a / blockSize = start at *
  rw [int32_eq (by omega)]
  dsimp only
  rw [u64_natCast (by omega), if_neg (by omega), u32_natCast (by omega)]

/-- Giving back a live run takes it off the counter. -/
theorem freeBlocks_live {l : Ledger} (hi : l.Inv) {a : Nat} {n : UInt32} (hr : (a, n) ∈ l.live) :
    l.state.freeBlocks a n =
      (l.state.unsetRun (a / blockSize) n.toNat).withUsed (l.state.usedBlocks - n.toNat) := by
  have hb := hi.bound
  have hin : a / blockSize + n.toNat ≤ l.state.maxBlocks := hi.inside _ hr
  have hcnt := setCount_unsetRun (s := l.state) (b := a / blockSize) (n := n.toNat) (by omega) hin
    (fun k hk => hi.set _ hr _ ⟨by dsimp only; omega, by dsimp only; omega⟩)
  have hle := l.state.setCount_le
  have hco := hi.counted
  rw [freeBlocks_eq hb hin, sub64_eq (by omega) (by omega)]

private theorem inv_free {l : Ledger} (hi : l.Inv) {a : Nat} {n : UInt32} (hr : (a, n) ∈ l.live) :
    Ledger.Inv ⟨l.state.freeBlocks a n, l.live.erase (a, n)⟩ := by
  have hm : l.state.maxBlocks ≤ 2^32 := by have := hi.bound; omega
  have hin : a / blockSize + n.toNat ≤ l.state.maxBlocks := hi.inside _ hr
  have hbit := testBlock_unsetRun hm hin
  have hcnt := setCount_unsetRun hm hin
    (fun k hk => hi.set _ hr _ ⟨by dsimp only; omega, by dsimp only; omega⟩)
  have hmem : ∀ r ∈ l.live.erase (a, n), r ∈ l.live := fun r h => List.mem_of_mem_erase h
  -- every other live run is disjoint from the freed one
  have hdis : ∀ r ∈ l.live.erase (a, n), Disjoint (blocksOf (a, n)) (blocksOf r) := by
    have hp : ((a, n) :: l.live.erase (a, n)).Pairwise fun r r' => Disjoint (blocksOf r) (blocksOf r') :=
      (List.perm_cons_erase hr).pairwise hi.disjoint (fun h => h.symm)
    exact (List.pairwise_cons.mp hp).1
  rw [freeBlocks_live hi hr]
  refine ⟨by simpa using hi.bound, ?_, fun r h => hi.aligned r (hmem r h),
    fun r h => by simpa using hi.inside r (hmem r h), ?_, hi.disjoint.sublist List.erase_sublist⟩
  · have := hi.counted
    simp only [withUsed_usedBlocks, setCount_withUsed]
    omega
  · intro r h c hc
    have hnot : ¬ (a / blockSize ≤ c ∧ c < a / blockSize + n.toNat) :=
      fun hca => Set.disjoint_left.mp (hdis r h) hca hc
    simp only [testBlock_withUsed, hbit, hi.set r (hmem r h) c hc, hnot, decide_false, Bool.not_false,
      Bool.and_true]

theorem Ledger.Step.inv {l l' : Ledger} {c : Call} (hi : l.Inv) (h : l.Step c l') : l'.Inv := by
  cases c with
  | allocateBlocks n => exact (show l' = _ from h) ▸ inv_allocate hi n
  | deinitializeMemoryRegion base size => exact (show l' = _ from h) ▸ inv_deinitialize hi base size
  | freeBlocks a n => obtain ⟨hr, rfl⟩ := h; exact inv_free hi hr

/-- In every run from a correctly counted bitmap the counter stays exact and
never exceeds max_blocks, live runs are disjoint, and whatever `allocate_blocks`
returns next is the lowest run, of which exactly the bits become set. -/
theorem block_runs_exact {s : State} (hm : s.maxBlocks < 2^31) (hc : s.usedBlocks = s.setCount)
    {calls : List Call} {l : Ledger} (hr : Run Ledger.Step ⟨s, []⟩ calls l) :
    l.state.usedBlocks = l.state.setCount ∧ l.state.usedBlocks ≤ l.state.maxBlocks ∧
    l.live.Pairwise (fun r r' => Disjoint (blocksOf r) (blocksOf r')) ∧
    ∀ n p t, l.state.allocateBlocks n = (p, t) → p ≠ 0 →
      ∃ b, p = b * blockSize ∧ l.state.LowestRun n.toNat b ∧
        ∀ c, t.testBlock c = (l.state.testBlock c || decide (b ≤ c ∧ c < b + n.toNat)) := by
  have hi : l.Inv := hr.invariant Ledger.Inv (fun _ _ _ hi h => h.inv hi)
    ⟨hm, hc, by simp, by simp, by simp, List.Pairwise.nil⟩
  refine ⟨hi.counted, hi.counted ▸ l.state.setCount_le, hi.disjoint, ?_⟩
  intro n p t he hp
  rcases allocateBlocks_cases hi.bound hi.counted n with he' | ⟨b, hb, hend, he'⟩
  · rw [he] at he'
    exact absurd (congrArg Prod.fst he') hp
  · rw [he] at he'
    obtain ⟨rfl, rfl⟩ := Prod.mk.inj he'
    refine ⟨b, rfl, hb, fun c => ?_⟩
    have := hi.bound
    simp [testBlock_setRun (by omega) hend]

/-- A map of 64 free blocks, after block 0 was reserved and two runs were taken. -/
theorem block_runs_exact_sample :
    ∃ l, Run Ledger.Step ⟨⟨fun _ => 0#32, 64, 0⟩, []⟩
      [.deinitializeMemoryRegion 0 1, .allocateBlocks 2, .allocateBlocks 3] l ∧
      l.live = [(3 * 4096, 3), (1 * 4096, 2)] ∧ l.state.usedBlocks = l.state.setCount := by
  have hr : Run Ledger.Step ⟨⟨fun _ => 0#32, 64, 0⟩, []⟩
      [.deinitializeMemoryRegion 0 1, .allocateBlocks 2, .allocateBlocks 3] _ :=
    .cons rfl (.cons rfl (.cons rfl (.nil _)))
  exact ⟨_, hr, by decide +kernel, (block_runs_exact (by decide) (by decide) hr).1⟩

end GeckoOS.Mem.PhysicalMem
