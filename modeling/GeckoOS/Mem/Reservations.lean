import GeckoOS.Mem.UsableRam

/-! What `reserve_region` covers. The first block and the number of blocks are
rounded on their own, so a region can reach one block further than its length. -/
namespace GeckoOS.Mem.PhysicalMem
open Lib State

/-- Block `b` holds a byte of the `size` bytes from `base` on. -/
def TouchesBlock (base size b : Nat) : Prop := ∃ a, base ≤ a ∧ a < base + size ∧ a / blockSize = b

/-- The number of bits that are set in `t` and not in `s`. -/
def newlySet (s t : State) : Nat :=
  Nat.count (fun b => t.testBlock b = true ∧ s.testBlock b = false) s.maxBlocks

/-- From `s` to `t` exactly the blocks of the region became used, and were counted. -/
structure Covers (s : State) (base size : UInt64) (t : State) : Prop where
  covered : ∀ b < s.maxBlocks, TouchesBlock base.toNat size.toNat b → t.testBlock b = true
  kept : ∀ b, ¬ (b < s.maxBlocks ∧ TouchesBlock base.toNat size.toNat b) → t.testBlock b = s.testBlock b
  counted : t.usedBlocks = add64 s.usedBlocks (newlySet s t)

/-- Every block of the region that is not among the `(size + BLOCK_SIZE - 1) / BLOCK_SIZE`
blocks from its first one on, or has a number beyond 32 bits, is used already. -/
def MissesNone (s : State) (base size : UInt64) : Prop :=
  ∀ b < s.maxBlocks, TouchesBlock base.toNat size.toNat b → ¬ InRegion base size b ∨ 2^32 ≤ b →
  s.testBlock b = true

variable {s t : State} {base size : UInt64} {b : Nat}

theorem InRegion.touches (hsize : 0 < size.toNat) (hb : InRegion base size b) :
    TouchesBlock base.toNat size.toNat b := by
  obtain ⟨hlo, hhi⟩ := hb
  have hround : add64 size.toNat (blockSize - 1) ≤ size.toNat + (blockSize - 1) := by
    unfold add64
    exact Nat.mod_le _ _
  unfold blockSize at *
  obtain rfl | hlt := hlo.eq_or_lt
  · exact ⟨base.toNat, Nat.le_refl _, by omega, rfl⟩
  · exact ⟨4096 * b, by omega, by omega, by unfold blockSize; omega⟩

theorem newlySet_eq (hm : t.maxBlocks = s.maxBlocks) (hsub : ∀ b, s.testBlock b = true → t.testBlock b = true) :
    t.setCount = s.setCount + newlySet s t := by
  unfold State.setCount newlySet
  rw [hm]
  induction s.maxBlocks with
  | zero => rfl
  | succ m ih =>
    rw [Nat.count_succ, Nat.count_succ, Nat.count_succ, ih]
    have hbit := hsub m
    cases hs : s.testBlock m <;> cases ht : t.testBlock m <;> simp_all <;> omega

theorem highSetIn_of_missesNone (hsize : 0 < size.toNat) (h : MissesNone s base size) :
    s.HighSetIn (base.toNat / blockSize) (add64 size.toNat (blockSize - 1) / blockSize) :=
  fun b hlo hhi hb hhigh => h b hb (InRegion.touches hsize ⟨hlo, hhi⟩) (.inr hhigh)

theorem covers_of_missesNone (hu : s.usedBlocks < 2^64) (hsize : 0 < size.toNat) (h : MissesNone s base size) :
    Covers s base size (s.reserveRegion base size) := by
  have hhigh := highSetIn_of_missesNone hsize h
  have hbit : ∀ b, (s.reserveRegion base size).testBlock b =
      (s.testBlock b || decide (InRegion base size b ∧ b < s.maxBlocks)) := fun b => by
    rw [State.reserveRegion, testBlock_reserveLoop_of_high hhigh]
    simp only [InRegion, and_assoc]
  refine ⟨fun b hb htouch => ?_, fun b hb => ?_, ?_⟩
  · rw [hbit]
    by_cases hin : InRegion base size b
    · simp [hin, hb]
    · rw [h b hb htouch (.inl hin), Bool.true_or]
  · rw [hbit, decide_eq_false (fun hin => hb ⟨hin.2, InRegion.touches hsize hin.1⟩), Bool.or_false]
  · obtain ⟨k, hset, hused⟩ := reserveLoop_counts hhigh hu
    have hnew := newlySet_eq (s := s) (t := s.reserveRegion base size) (reserveRegion_maxBlocks ..)
      fun b hb => by rw [hbit, hb, Bool.true_or]
    have hk : newlySet s (s.reserveRegion base size) = k := by
      rw [State.reserveRegion] at hnew ⊢
      omega
    rw [hk]
    exact hused

theorem missesNone_of_covers (hsize : 0 < size.toNat) (h : Covers s base size (s.reserveRegion base size)) :
    MissesNone s base size := by
  have hset : ∀ b < s.maxBlocks, TouchesBlock base.toNat size.toNat b → 2^32 ≤ b → s.testBlock b = true := by
    intro b hb htouch hhigh
    rw [← testBlock_reserveLoop_high s _ _ hhigh]
    exact h.covered b hb htouch
  have hhigh : s.HighSetIn (base.toNat / blockSize) (add64 size.toNat (blockSize - 1) / blockSize) :=
    fun b hlo hhi hb => hset b hb (InRegion.touches hsize ⟨hlo, hhi⟩)
  rintro b hb htouch (hmiss | hlarge)
  · have hcov := h.covered b hb htouch
    rw [State.reserveRegion, testBlock_reserveLoop_of_high hhigh] at hcov
    simpa [show ¬ (base.toNat / blockSize ≤ b ∧ _) from hmiss, ← and_assoc] using hcov
  · exact hset b hb htouch hlarge

/-- Blocks with a byte of the page for the AP trampoline. -/
def Trampoline (b : Nat) : Prop := TouchesBlock apTrampolineAddr.toNat apTrampolineSize.toNat b

namespace BootInfo
variable (bt : BootInfo)

/-- Blocks with a byte of the kernel image, of the MBI or of the bitmap. -/
def Occupied (b : Nat) : Prop :=
  TouchesBlock bt.kernelStart.toNat (bt.kernelEnd.toNat - bt.kernelStart.toNat) b ∨
  TouchesBlock bt.mbiAddr.toNat bt.totalSize b ∨ TouchesBlock bt.bitmapBase bt.bitmapBytes b

/-- Blocks that a walk with these entries clears, by their number or by the low 32 bits of another. -/
def Cleared (entries : List Boot.MmapEntry) (b : Nat) : Prop :=
  ∃ d, Offered entries d ∧ d < bt.maxBlocks ∧ d % 2^32 = b

end BootInfo

private theorem Trampoline.reserved (bt : BootInfo) (hb : Trampoline b) : bt.Reserved b := by
  obtain ⟨a, hlo, hhi, rfl⟩ := hb
  refine .inr (.inr ⟨Nat.div_le_div_right hlo, ?_⟩)
  have hone : add64 apTrampolineSize.toNat (blockSize - 1) / blockSize = 1 := by decide +kernel
  have hstart : apTrampolineAddr.toNat / blockSize = 8 := by decide
  have hend : a < 0x9000 := hhi
  rw [hone, hstart]
  unfold blockSize
  omega

/-- `reserve_region` covers its region exactly if the blocks that it misses are
used already. After the initialisation, whatever entries the walk has met, no clear
block holds a byte of what was to be reserved exactly if each of these blocks that
the walk has cleared is among the blocks that one of the reservations takes. -/
theorem reserved_regions_covered_iff (bt : BootInfo) (words : Nat → BitVec 32) (es : List Boot.MmapEntry) :
    (∀ (s : State) (base size : UInt64), s.usedBlocks < 2^64 → 0 < size.toNat → base.toNat + size.toNat < 2^64 →
      (Covers s base size (s.reserveRegion base size) ↔ MissesNone s base size)) ∧
    ((∀ b < bt.maxBlocks, (afterWalk bt words es).testBlock b = false → ¬ (bt.Occupied b ∨ Trampoline b)) ↔
      ∀ b < bt.maxBlocks, bt.Occupied b → bt.Cleared es b → bt.Reserved b) ∧
    initializeMemoryManager bt words = (bt.met words).map (afterWalk bt words) := by
  refine ⟨fun s base size hu hsize _ => ⟨missesNone_of_covers hsize, covers_of_missesNone hu hsize⟩, ?_,
    initialize_eq_afterWalk bt words⟩
  constructor
  · intro hall b hb hocc hcleared
    by_contra hres
    exact hall b hb ((clear_afterWalk hb).mpr ⟨hcleared, hres⟩) (.inl hocc)
  · intro hall b hb hclear hmeets
    obtain ⟨hcleared, hres⟩ := (clear_afterWalk hb).mp hclear
    rcases hmeets with hocc | ht
    · exact hres (hall b hb hocc hcleared)
    · exact hres (ht.reserved bt)

/-- A page and a half from an aligned address on. -/
theorem reserved_regions_covered_aligned :
    Covers ⟨fun _ => 0#32, 64, 0⟩ 0x1000 0x1800 (State.reserveRegion ⟨fun _ => 0#32, 64, 0⟩ 0x1000 0x1800) := by
  have hregions :=
    (reserved_regions_covered_iff (sampleBoot [(0x1000, 0x9E000)] 0x108000 0x120000) (fun _ => 0#32) []).1
  refine (hregions _ 0x1000 0x1800 (by decide) (by decide) (by decide)).mpr ?_
  rintro b hb ⟨a, hlo, hhi, rfl⟩ (hmiss | hlarge)
  · have hlo' : 0x1000 ≤ a := hlo
    have hhi' : a < 0x2800 := hhi
    have hcount : add64 (0x1800 : UInt64).toNat (blockSize - 1) / blockSize = 2 := by decide +kernel
    refine absurd ⟨?_, ?_⟩ hmiss
    · exact Nat.div_le_div_right hlo
    · rw [hcount, show (0x1000 : UInt64).toNat / blockSize = 1 by decide]
      unfold blockSize
      omega
  · have : a / blockSize < 64 := hb
    omega

/-- Sixteen bytes across the end of a block, and an MBI across the end of one: the
second block is left free. -/
theorem straddling_region_left_free :
    ¬ Covers ⟨fun _ => 0#32, 64, 0⟩ 0x1FF8 16 (State.reserveRegion ⟨fun _ => 0#32, 64, 0⟩ 0x1FF8 16) ∧
    ∃ s, initializeMemoryManager
        { sampleBoot [(0x1000, 0x9E000), (0x100000, 0x20000)] 0x108000 0x120000 with mbiAddr := 0x9FF8 }
        (fun _ => 0#32) = some s ∧
      ∃ b < s.maxBlocks, s.testBlock b = false ∧
        ({ sampleBoot [(0x1000, 0x9E000),
          (0x100000, 0x20000)] 0x108000 0x120000 with mbiAddr := 0x9FF8 } : BootInfo).Occupied b := by
  constructor
  · intro h
    have hcov := h.covered 2 (by decide) ⟨0x2000, by decide, by decide, by decide⟩
    revert hcov
    decide +kernel
  · have hc : (initializeMemoryManager
        { sampleBoot [(0x1000, 0x9E000), (0x100000, 0x20000)] 0x108000 0x120000 with mbiAddr := 0x9FF8 }
        (fun _ => 0#32)).map (fun s => (decide (0xA < s.maxBlocks), s.testBlock 0xA)) =
          some (true, false) := by decide +kernel
    obtain ⟨s, hs, hpair⟩ := Option.map_eq_some_iff.mp hc
    obtain ⟨hlt, hclear⟩ := Prod.mk.inj hpair
    refine ⟨s, hs, 0xA, of_decide_eq_true hlt, hclear, .inr (.inl ⟨0xA000, by decide, ?_, by decide⟩)⟩
    change 0xA000 < 0x9FF8 + BootInfo.totalSize _
    decide +kernel

end GeckoOS.Mem.PhysicalMem
