import GeckoOS.Mem.Allocators

/-! Which memory the initialisation leaves to the block allocator: the whole
blocks inside available entries of the map, and the blocks at their edges. -/
namespace GeckoOS.Mem.PhysicalMem
open Lib Boot State

namespace State
variable {s : State}

/-- `unset_block` takes a 32-bit number, so no block from 2^32 on is ever cleared. -/
def HighSet (s : State) : Prop := ∀ c, 2^32 ≤ c → c < s.maxBlocks → s.testBlock c = true

theorem HighSet.unset (hs : s.HighSet) {b : Nat} (hb : b < s.maxBlocks) (u : Nat) :
    ((s.unsetBlock (b % 2^32)).withUsed u).HighSet := by
  intro c hc hlt
  rw [withUsed_maxBlocks, unsetBlock_maxBlocks] at hlt
  rw [testBlock_withUsed, testBlock_unsetBlock (Nat.lt_of_le_of_lt (Nat.mod_le b (2^32)) hb), hs c hc hlt]
  simp
  omega

theorem HighSet.set (hs : s.HighSet) {b : Nat} (hb : b < s.maxBlocks) (u : Nat) :
    ((s.setBlock b).withUsed u).HighSet := by
  intro c hc hlt
  rw [withUsed_maxBlocks, setBlock_maxBlocks] at hlt
  rw [testBlock_withUsed, testBlock_setBlock hb, hs c hc hlt, Bool.true_or]

private theorem exists_from_succ {p : Nat → Prop} (b n : Nat) :
    (∃ d, b ≤ d ∧ d < b + (n+1) ∧ p d) ↔ p b ∨ ∃ d, b+1 ≤ d ∧ d < b+1 + n ∧ p d := by
  constructor
  · rintro ⟨d, hlo, hhi, hp⟩
    obtain rfl | hlt := hlo.eq_or_lt
    · exact .inl hp
    · exact .inr ⟨d, hlt, by omega, hp⟩
  · rintro (hp | ⟨d, hlo, hhi, hp⟩)
    · exact ⟨b, by omega, by omega, hp⟩
    · exact ⟨d, by omega, by omega, hp⟩

/-- A region that reaches beyond block 2^32 clears blocks at the low end instead. -/
theorem HighSet.freeLoop (hs : s.HighSet) (b n : Nat) :
    (s.freeLoop b n).HighSet ∧ ∀ c, (s.freeLoop b n).testBlock c = true ↔
      s.testBlock c = true ∧ ¬ ∃ d, b ≤ d ∧ d < b + n ∧ d < s.maxBlocks ∧ d % 2^32 = c := by
  induction n generalizing s b with
  | zero => exact ⟨hs, fun c => by simp [State.freeLoop]; omega⟩
  | succ n ih =>
    rw [State.freeLoop]
    split
    · next hb =>
      have hmod := Nat.mod_le b (2^32)
      split
      · next ht =>
        obtain ⟨hh, hc⟩ := ih (hs.unset hb _) (b+1)
        refine ⟨hh, fun c => ?_⟩
        rw [hc, testBlock_withUsed, testBlock_unsetBlock (by omega), withUsed_maxBlocks, unsetBlock_maxBlocks,
          exists_from_succ]
        grind
      · next ht =>
        obtain ⟨hh, hc⟩ := ih hs (b+1)
        refine ⟨hh, fun c => ?_⟩
        have hlow : b % 2^32 = b := Nat.mod_eq_of_lt (by by_contra h; exact ht (hs b (by omega) hb))
        rw [hc, exists_from_succ, hlow]
        grind
    · next hb =>
      refine ⟨hs, fun c => ?_⟩
      grind

theorem HighSet.reserveLoop (hs : s.HighSet) (b n : Nat) :
    (s.reserveLoop b n).HighSet ∧ ∀ c, (s.reserveLoop b n).testBlock c = true ↔
      s.testBlock c = true ∨ b ≤ c ∧ c < b + n ∧ c < s.maxBlocks := by
  have hc : ∀ c, (s.reserveLoop b n).testBlock c = true ↔ s.testBlock c = true ∨ b ≤ c ∧ c < b + n ∧
    c < s.maxBlocks := by
    intro c
    rw [testBlock_reserveLoop_of_high fun c _ _ hlt hhigh => hs c hhigh hlt]
    simp
  refine ⟨fun c hhigh hlt => (hc c).mpr (.inl ?_), hc⟩
  rw [reserveLoop_maxBlocks] at hlt
  exact hs c hhigh hlt

theorem HighSet.freeEntries (hs : s.HighSet) (es : List MmapEntry) :
    (es.foldl freeEntry s).HighSet ∧ ∀ c, (es.foldl freeEntry s).testBlock c = true ↔
      s.testBlock c = true ∧ ¬ ∃ e ∈ es, e.available ∧ ∃ d, InRegion e.baseAddr e.length d ∧
        d < s.maxBlocks ∧ d % 2^32 = c := by
  induction es generalizing s with
  | nil => exact ⟨hs, fun c => by simp⟩
  | cons e es ih =>
    rw [List.foldl_cons, freeEntry]
    split
    · next ha =>
      obtain ⟨hh, hf⟩ := hs.freeLoop (e.baseAddr.toNat / blockSize)
        (add64 e.length.toNat (blockSize - 1) / blockSize)
      obtain ⟨hh', hc⟩ := ih hh
      refine ⟨hh', fun c => ?_⟩
      rw [freeRegion, hc, hf, freeLoop_maxBlocks, List.exists_mem_cons_iff, not_or, and_assoc]
      simp only [ha, true_and, InRegion, and_assoc]
    · next ha =>
      obtain ⟨hh, hc⟩ := ih hs
      refine ⟨hh, fun c => ?_⟩
      rw [hc, List.exists_mem_cons_iff]
      simp [ha]

theorem HighSet.reserveRegion (hs : s.HighSet) (base size : UInt64) :
    (s.reserveRegion base size).HighSet ∧ ∀ c < s.maxBlocks, (s.reserveRegion base size).testBlock c = true ↔
      s.testBlock c = true ∨ InRegion base size c := by
  obtain ⟨hh, hr⟩ := hs.reserveLoop (base.toNat / blockSize) (add64 size.toNat (blockSize - 1) / blockSize)
  refine ⟨hh, fun c hc => ?_⟩
  rw [State.reserveRegion, hr]
  simp [InRegion, hc]

theorem HighSet.reserveAll (hs : s.HighSet) (bt : BootInfo) {b : Nat} (hb : b < s.maxBlocks) :
    (reserveAll bt s).testBlock b = true ↔ s.testBlock b = true ∨ bt.Reserved b := by
  obtain ⟨h1, e1⟩ := hs.reserveRegion bt.kernelStart (bt.kernelEnd - bt.kernelStart)
  obtain ⟨h2, e2⟩ := h1.reserveRegion (.ofNat bt.mbiAddr.toNat) (.ofNat bt.totalSize)
  obtain ⟨h3, e3⟩ := h2.reserveRegion (.ofNat bt.bitmapBase) (.ofNat bt.bitmapBytes)
  obtain ⟨h4, e4⟩ := (h3.set (b := 0) (by simp; omega) _).reserveRegion apTrampolineAddr apTrampolineSize
  rw [PhysicalMem.reserveAll, e4 b (by simpa using hb), testBlock_withUsed, testBlock_setBlock (by simp; omega),
    Bool.or_eq_true, e3 b (by simpa using hb), e2 b (by simpa using hb), e1 b hb]
  simp only [BootInfo.Reserved, BootInfo.Taken, decide_eq_true_eq, or_assoc]

end State

variable {s : State}

theorem filled_highSet (bt : BootInfo) (words : Nat → BitVec 32) {c : Nat} (hc : c < bt.maxBlocks) :
    (State.mk (fillBytes words bt.bitmapBytes) bt.maxBlocks bt.maxBlocks).testBlock c = true :=
  testBlock_fillBytes words (by unfold BootInfo.bitmapBytes; omega)

/-- For every map, also one that reaches beyond 2^32 blocks: which blocks are clear. -/
theorem clear_afterWalk {bt : BootInfo} {words : Nat → BitVec 32} {es : List MmapEntry} {b : Nat}
    (hb : b < bt.maxBlocks) :
    (afterWalk bt words es).testBlock b = false ↔
      (∃ d, Offered es d ∧ d < bt.maxBlocks ∧ d % 2^32 = b) ∧ ¬ bt.Reserved b := by
  obtain ⟨hh, hf⟩ := HighSet.freeEntries (fun c _ hc => filled_highSet bt words hc) es
  have hoffer : (∃ d, Offered es d ∧ d < bt.maxBlocks ∧ d % 2^32 = b) ↔
      ∃ e ∈ es, e.available ∧ ∃ d, InRegion e.baseAddr e.length d ∧ d < bt.maxBlocks ∧ d % 2^32 = b := by
    constructor
    · rintro ⟨d, ⟨e, he, ha, hin⟩, hd⟩
      exact ⟨e, he, ha, d, hin, hd⟩
    · rintro ⟨e, he, ha, d, hin, hd⟩
      exact ⟨d, ⟨e, he, ha, hin⟩, hd⟩
  rw [← Bool.not_eq_true, afterWalk, hh.reserveAll bt (by rwa [freeEntries_maxBlocks]), hf,
    filled_highSet bt words hb, hoffer]
  simp

namespace BootInfo
variable (bt : BootInfo)

/-- The byte at `a` belongs to an available entry of the map. -/
def Ram (a : Nat) : Prop := ∃ es, bt.entries = some es ∧
  ∃ e ∈ es, e.available ∧ e.baseAddr.toNat ≤ a ∧ a < e.baseAddr.toNat + e.length.toNat

/-- All bytes of block `b` are RAM. -/
def Usable (b : Nat) : Prop := ∀ a, blockSize * b ≤ a → a < blockSize * (b+1) → bt.Ram a

/-- All blocks of the entries that the walk meets without the loader having made them,
and of an available entry of the map the first block and the last that `free_region`
takes it to be, are reserved or RAM throughout; and so are the blocks cleared in place
of those from 2^32 on. -/
def EdgesUsable (words : Nat → BitVec 32) : Prop := ∀ es, bt.met words = some es → ∀ e ∈ es, e.available →
  ∀ d, InRegion e.baseAddr e.length d → d < bt.maxBlocks →
    (¬ ∃ es', bt.entries = some es' ∧ e ∈ es') ∨
      d = e.baseAddr.toNat / blockSize ∨ ¬ InRegion e.baseAddr e.length (d+1) ∨ 2^32 ≤ d →
    bt.Reserved (d % 2^32) ∨ bt.Usable (d % 2^32)

end BootInfo

/-- A block with a neighbour on either side in the region lies inside it. -/
private theorem inner_block_inside {base size : UInt64} {d a : Nat} (hd : InRegion base size d)
    (hfirst : d ≠ base.toNat / blockSize) (hlast : InRegion base size (d+1))
    (hlo : blockSize * d ≤ a) (hhi : a < blockSize * (d+1)) :
    base.toNat ≤ a ∧ a < base.toNat + size.toNat := by
  obtain ⟨hd1, -⟩ := hd
  obtain ⟨-, hd2⟩ := hlast
  have hsize : add64 size.toNat (blockSize - 1) ≤ size.toNat + (blockSize - 1) := by
    unfold add64
    exact Nat.mod_le _ _
  unfold blockSize at *
  omega

/-- The blocks left clear are RAM throughout exactly if those at the edges of
the available entries are. -/
theorem clear_blocks_usable_iff {bt : BootInfo} {words : Nat → BitVec 32}
    (h : initializeMemoryManager bt words = some s) :
    (∀ b < bt.maxBlocks, s.testBlock b = false → bt.Usable b) ↔ bt.EdgesUsable words := by
  rw [initialize_eq_afterWalk] at h
  obtain ⟨es, hes, rfl⟩ := Option.map_eq_some_iff.mp h
  constructor
  · intro hall es' hes' e he ha d hin hd hedge
    obtain rfl : es = es' := Option.some.inj (hes.symm.trans hes')
    have hmod := Nat.mod_le d (2^32)
    by_cases hr : bt.Reserved (d % 2^32)
    · exact .inl hr
    · exact .inr (hall _ (by omega) ((clear_afterWalk (by omega)).mpr ⟨⟨d, ⟨e, he, ha, hin⟩, hd, rfl⟩, hr⟩))
  · intro hedge b hb hclear
    obtain ⟨⟨d, ⟨e, he, ha, hin⟩, hd, rfl⟩, hr⟩ := (clear_afterWalk hb).mp hclear
    by_cases hinner : (∃ es', bt.entries = some es' ∧ e ∈ es') ∧ d ≠ e.baseAddr.toNat / blockSize ∧
        InRegion e.baseAddr e.length (d+1) ∧ d < 2^32
    · obtain ⟨⟨es', hes', he'⟩, hfirst, hlast, hlow⟩ := hinner
      rw [Nat.mod_eq_of_lt hlow]
      intro a hlo hhi
      exact ⟨es', hes', e, he', ha, inner_block_inside hin hfirst hlast hlo hhi⟩
    · exact (hedge es hes e he ha d hin hd (by grind)).resolve_left hr

/-- A map of whole blocks below 2^32 that the bitmap leaves alone has no edges to care for. -/
theorem edgesUsable_of_aligned {bt : BootInfo} {words : Nat → BitVec 32} (hm : bt.maxBlocks ≤ 2^32)
    (hu : bt.Undisturbed words) (hal : ∀ es, bt.entries = some es → ∀ e ∈ es, e.available →
      blockSize ∣ e.baseAddr.toNat ∧ blockSize ∣ e.length.toNat) : bt.EdgesUsable words := by
  intro es hes e he ha d hin hd _
  rw [BootInfo.met_undisturbed hu] at hes
  obtain ⟨hbase, hlen⟩ := hal es hes e he ha
  rw [Nat.mod_eq_of_lt (by omega)]
  refine .inr fun a hlo hhi => ⟨es, hes, e, he, ha, ?_⟩
  obtain ⟨h1, h2⟩ := hin
  have hsize : add64 e.length.toNat (blockSize - 1) ≤ e.length.toNat + (blockSize - 1) := by
    unfold add64
    exact Nat.mod_le _ _
  unfold blockSize at *
  omega

theorem clear_blocks_usable_aligned :
    ∃ s, initializeMemoryManager (sampleBoot [(0x1000, 0x9E000), (0x100000, 0x20000)] 0x108000 0x120000)
        (fun _ => 0#32) = some s ∧
      ∀ b < 0x120, s.testBlock b = false →
        (sampleBoot [(0x1000, 0x9E000), (0x100000, 0x20000)] 0x108000 0x120000).Usable b := by
  have hx : (sampleBoot [(0x1000, 0x9E000), (0x100000, 0x20000)] 0x108000 0x120000).extents =
      some [(0x1000, 0x9E000), (0x100000, 0x20000)] := by decide +kernel
  have hm : (sampleBoot [(0x1000, 0x9E000), (0x100000, 0x20000)] 0x108000 0x120000).maxBlocks = 0x120 := by
    decide +kernel
  have hedge : (sampleBoot [(0x1000, 0x9E000), (0x100000, 0x20000)] 0x108000 0x120000).EdgesUsable
    fun _ => 0#32 := by
    apply edgesUsable_of_aligned (by omega)
      (BootInfo.undisturbed_of_same (by decide +kernel) (by decide +kernel))
    intro es hes e he _
    have hmem := mem_extents hx hes he
    simp only [List.mem_cons, Prod.mk.injEq, List.not_mem_nil, or_false] at hmem
    unfold blockSize
    omega
  have hends : (initializeMemoryManager (sampleBoot [(0x1000, 0x9E000), (0x100000, 0x20000)] 0x108000 0x120000)
      (fun _ => 0#32)).isSome = true := by decide +kernel
  obtain ⟨s, hs⟩ := Option.isSome_iff_exists.mp hends
  refine ⟨s, hs, ?_⟩
  rw [← hm]
  exact (clear_blocks_usable_iff hs).mpr hedge

/-- The usual map of a PC, with low memory up to 0x9FC00: block 0x9F is left
clear, and its last KiB is not RAM. -/
theorem low_memory_edge_left_clear :
    (sampleBoot [(0x1000, 0x9EC00), (0x100000, 0x20000)] 0x108000 0x120000).extents =
        some [(0x1000, 0x9EC00), (0x100000, 0x20000)] ∧
    ∃ s, initializeMemoryManager (sampleBoot [(0x1000, 0x9EC00), (0x100000, 0x20000)] 0x108000 0x120000)
        (fun _ => 0#32) = some s ∧
      ¬ ∀ b < (sampleBoot [(0x1000, 0x9EC00), (0x100000, 0x20000)] 0x108000 0x120000).maxBlocks,
        s.testBlock b = false →
          (sampleBoot [(0x1000, 0x9EC00), (0x100000, 0x20000)] 0x108000 0x120000).Usable b := by
  have hx : (sampleBoot [(0x1000, 0x9EC00), (0x100000, 0x20000)] 0x108000 0x120000).extents =
      some [(0x1000, 0x9EC00), (0x100000, 0x20000)] := by decide +kernel
  have hm : (sampleBoot [(0x1000, 0x9EC00), (0x100000, 0x20000)] 0x108000 0x120000).maxBlocks = 0x120 := by
    decide +kernel
  have hc : (initializeMemoryManager (sampleBoot [(0x1000, 0x9EC00), (0x100000, 0x20000)] 0x108000 0x120000)
      (fun _ => 0#32)).map (fun s => s.testBlock 0x9F) = some false := by decide +kernel
  obtain ⟨s, hs, hclear⟩ := Option.map_eq_some_iff.mp hc
  refine ⟨hx, s, hs, fun hall => ?_⟩
  obtain ⟨es, hes, e, he, -, hlo, hhi⟩ := hall 0x9F (by omega) hclear 0x9FC00 (by decide) (by decide)
  have hmem := mem_extents hx hes he
  simp only [List.mem_cons, Prod.mk.injEq, List.not_mem_nil, or_false] at hmem
  omega

end GeckoOS.Mem.PhysicalMem
