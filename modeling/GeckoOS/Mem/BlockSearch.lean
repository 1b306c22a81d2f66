import GeckoOS.Mem.BlockRuns

/-! When `allocate_blocks` finds a run of free blocks that is there. -/
namespace GeckoOS.Mem.PhysicalMem
open Lib State

/-- The block at the address that a start number is turned into: it is stored as
an `int32_t`, and extended to 64 bits before it is multiplied. -/
def startBlock (b : Nat) : Nat := u64 (int32 b) % 2^52

namespace State
variable (s : State)

/-- `allocate_blocks(n)` returns a non-NULL address of `n` consecutive blocks that were free. -/
def Serves (n : UInt32) : Prop :=
  (s.allocateBlocks n).1 ≠ 0 ∧ ∃ b, (s.allocateBlocks n).1 = b * blockSize ∧ s.FreeRun n.toNat b

/-- Some `n` consecutive blocks behind block 0 are free. -/
def HasRun (n : UInt32) : Prop := ∃ b, 1 ≤ b ∧ s.FreeRun n.toNat b

/-- More than `n` blocks are free, and the lowest run among those that start in a
full word of the map has a number that 32 bits hold, and not the number 0. -/
structure Findable (n : UInt32) : Prop where
  spare : s.usedBlocks + n.toNat < s.maxBlocks
  found : ∃ b, s.LowestRun n.toNat b ∧ int32 b ≠ -1 ∧ startBlock b ≠ 0 ∧ s.FreeRun n.toNat (startBlock b)

end State

variable {s : State} {n : UInt32} {b c : Nat}

theorem startBlock_eq (h : b < 2^31) : startBlock b = b := by
  rw [startBlock, int32_eq h, u64_natCast (by omega)]
  omega

theorem State.LowestRun.unique {k : Nat} (hb : s.LowestRun k b) (hc : s.LowestRun k c) : b = c := by
  rcases Nat.lt_trichotomy b c with h | h | h
  · exact absurd hb.free (hc.lowest b h)
  · exact h
  · exact absurd hc.free (hb.lowest c h)

/-- The address is the one of the block that the start number stands for. -/
private theorem address_eq (b : Nat) : u64 (int32 b) * blockSize % 2^64 = startBlock b * blockSize := by
  unfold startBlock blockSize
  omega

/-- Everything `allocate_blocks` returns on a correctly counted map of any size. -/
theorem allocateBlocks_fst (hm : s.maxBlocks < 2^64) (hc : s.usedBlocks = s.setCount) (hn : n.toNat ≠ 0) :
    ((s.allocateBlocks n).1 = 0 ∧
        (s.maxBlocks ≤ s.usedBlocks + n.toNat ∨ ∀ b, s.LowestRun n.toNat b → int32 b = -1)) ∨
      (s.usedBlocks + n.toNat < s.maxBlocks ∧
        ∃ b, s.LowestRun n.toNat b ∧ int32 b ≠ -1 ∧ (s.allocateBlocks n).1 = startBlock b * blockSize) := by
  have hle := s.setCount_le
  unfold allocateBlocks
  rw [sub64_eq hm (by omega)]
  split
  · next hfew => exact .inl ⟨rfl, .inl (by omega)⟩
  · next hspare =>
    rcases s.findFirstFreeBlocks_cases hn with ⟨b, hb, he⟩ | ⟨hnone, he⟩
    · rw [he]
      dsimp only
      by_cases h1 : int32 b = -1
      · rw [if_pos h1]
        exact .inl ⟨rfl, .inr fun c hc => hb.unique hc ▸ h1⟩
      · rw [if_neg h1]
        exact .inr ⟨by omega, b, hb, h1, address_eq b⟩
    · rw [he]
      exact .inl ⟨rfl, .inr fun b hb => absurd hb.free (hnone b hb.fullWord)⟩

theorem serves_iff (hm : s.maxBlocks < 2^64) (hc : s.usedBlocks = s.setCount) (hn : n.toNat ≠ 0) :
    s.Serves n ↔ s.Findable n := by
  have hpos : 0 < blockSize := by decide
  rcases allocateBlocks_fst hm hc hn with ⟨hnull, hwhy⟩ | ⟨hspare, b, hb, hone, haddr⟩
  · constructor
    · rintro ⟨hne, -⟩
      exact absurd hnull hne
    · rintro ⟨hspare, b, hb, hone, -⟩
      rcases hwhy with hfew | hall
      · omega
      · exact absurd (hall b hb) hone
  · rw [Serves, haddr]
    constructor
    · rintro ⟨hne, c, hc, hfree⟩
      have hstart : startBlock b = c := Nat.eq_of_mul_eq_mul_right hpos hc
      exact ⟨hspare, b, hb, hone, fun h => hne (by rw [h, Nat.zero_mul]), hstart ▸ hfree⟩
    · rintro ⟨-, c, hc, -, hzero, hfree⟩
      obtain rfl := hb.unique hc
      exact ⟨Nat.mul_ne_zero hzero hpos.ne', startBlock b, rfl, hfree⟩

/-- On a map of less than 2^31 blocks only a run at block 0 is lost on the way. -/
theorem findable_iff_small (hm : s.maxBlocks < 2^31) :
    s.Findable n ↔ s.usedBlocks + n.toNat < s.maxBlocks ∧ ∃ b, s.LowestRun n.toNat b ∧ b ≠ 0 := by
  have hstart : ∀ b, s.LowestRun n.toNat b → int32 b ≠ -1 ∧ startBlock b = b := by
    intro b hb
    have hword := hb.fullWord
    refine ⟨?_, startBlock_eq (by omega)⟩
    rw [int32_eq (by omega)]
    omega
  constructor
  · rintro ⟨hspare, b, hb, -, hzero, -⟩
    exact ⟨hspare, b, hb, (hstart b hb).2 ▸ hzero⟩
  · rintro ⟨hspare, b, hb, hzero⟩
    obtain ⟨hone, heq⟩ := hstart b hb
    exact ⟨hspare, b, hb, hone, heq.symm ▸ hzero, heq.symm ▸ hb.free⟩

/-- A free run is served exactly if it can be found: one block more is free than
asked for, and a run starts in a full word of the map, but not at block 0. -/
theorem free_run_served_iff (hm : s.maxBlocks < 2^64) (hc : s.usedBlocks = s.setCount) (hn : 1 ≤ n.toNat) :
    (s.HasRun n → s.Serves n) ↔ (s.HasRun n → s.Findable n) :=
  imp_congr_right fun _ => serves_iff hm hc (by omega)

/-- A map of 64 blocks of which only block 0 is used. -/
theorem free_run_served_iff_half_full :
    (State.mk (fun i => if i = 0 then 1#32 else 0#32) 64 1).HasRun 5 ∧
      (State.mk (fun i => if i = 0 then 1#32 else 0#32) 64 1).Serves 5 := by
  have hfree : ∀ k < 5, 1 + k < 64 ∧ (State.mk (fun i => if i = 0 then 1#32 else 0#32) 64 1).testBlock
    (1 + k) = false := by
    decide
  have hrun : (State.mk (fun i => if i = 0 then 1#32 else 0#32) 64 1).HasRun 5 := ⟨1, Nat.le_refl 1, hfree⟩
  refine ⟨hrun, (free_run_served_iff (by decide) (by decide) (by decide)).mpr (fun _ => ?_) hrun⟩
  refine (findable_iff_small (by decide)).mpr ⟨by decide, 1, ⟨by decide, hfree, ?_⟩, by decide⟩
  intro c hc hzero
  obtain rfl : c = 0 := by omega
  exact absurd (hzero 0 (by decide)).2 (by decide)

/-- The used blocks are counted right, a block is free, and none is served. -/
def State.Refuses (s : State) : Prop :=
  s.maxBlocks < 2^64 ∧ s.usedBlocks = s.setCount ∧ s.HasRun 1 ∧ ¬ s.Serves 1

private theorem refuses_of_null {b : Nat} (hm : s.maxBlocks < 2^64) (hc : s.usedBlocks = s.setCount)
    (hb : 1 ≤ b)
    (hfree : b < s.maxBlocks ∧ s.testBlock b = false) (hnull : (s.allocateBlocks 1).1 = 0) : s.Refuses := by
  refine ⟨hm, hc, ⟨b, hb, fun k hk => ?_⟩, fun hserved => hserved.1 hnull⟩
  obtain rfl : k = 0 := Nat.lt_one_iff.mp hk
  exact hfree

/-- A map of 40 blocks whose last four, all in the partial word, are free, one of
32 with one free block, and one of 64 with nothing used: in none of them the free
block is served. -/
theorem free_block_not_served :
    (State.mk (fun i => if i = 0 then 0xFFFFFFFF#32 else 0x0F#32) 40 36).Refuses ∧
      (State.mk (fun _ => 0x7FFFFFFF#32) 32 31).Refuses ∧ (State.mk (fun _ => 0#32) 64 0).Refuses := by
  refine ⟨refuses_of_null (b := 36) ?_ ?_ ?_ ?_ ?_, refuses_of_null (b := 31) ?_ ?_ ?_ ?_ ?_,
    refuses_of_null (b := 1) ?_ ?_ ?_ ?_ ?_⟩
  all_goals decide +kernel

end GeckoOS.Mem.PhysicalMem
