import GeckoOS.Mem.BlockRuns
import GeckoOS.Mem.HeapRuns
import GeckoOS.Mem.MemoryInit

/-! The block allocator and the heap side by side, as they stand after boot. The
heap window is fixed in mem.c and known nowhere else. -/
namespace GeckoOS.Mem
open Lib PhysicalMem State

/-- A call to one of the two allocators. -/
inductive Call where
  | blocks (c : PhysicalMem.Call)
  | heap (c : Kmalloc.Call)

structure Allocators where
  blocks : PhysicalMem.Ledger
  heap : Kmalloc.Ledger

namespace Allocators

/-- Each allocator knows only its own state. -/
def Step (k : Allocators) : Call → Allocators → Prop
  | .blocks c, k' => k.blocks.Step c k'.blocks ∧ k'.heap = k.heap
  | .heap c, k' => k.heap.Step c k'.heap ∧ k'.blocks = k.blocks

/-- After `initialize_memory_manager_from_mbi` and `kalloc_init`. -/
def start (s : State) (cells : Kmalloc.Cells) : Allocators := ⟨⟨s, []⟩, ⟨Kmalloc.kallocInit cells, []⟩⟩

end Allocators

/-- Neither ALIGN8 nor the bound check of `create_block` wraps around. -/
def Call.Fits (k : Allocators) : Call → Prop
  | .heap (.kmalloc size) => size.toNat + 7 < 2^64 ∧ Kmalloc.Call.NoWrap k.heap.heap (.kmalloc size)
  | _ => True

def Allocators.FitStep (k : Allocators) (c : Call) (k' : Allocators) : Prop := c.Fits k ∧ k.Step c k'

/-- Blocks of the heap window 0x200000 .. 0x500000. -/
def InHeap (b : Nat) : Prop := 0x200 ≤ b ∧ b < 0x500

/-- The bitmap ends below the heap window and has left the memory map to be read, and
every block of the window that the map offers was reserved for something else. -/
structure PhysicalMem.BootInfo.HeapApart (bt : BootInfo) (words : Nat → BitVec 32) : Prop where
  bitmap : bt.bitmapBase + bt.bitmapBytes ≤ 0x200000
  map : bt.Undisturbed words
  window : ∀ b, InHeap b → b < bt.maxBlocks → bt.Available b → bt.Taken b

/-- The bytes of a block allocation. -/
def blockBytes (r : Nat × UInt32) : Set Nat := Set.Ico r.1 (r.1 + r.2.toNat * blockSize)

/-- The window is set in the map, and no live run meets it. -/
structure WindowKept (l : PhysicalMem.Ledger) : Prop where
  bound : l.state.maxBlocks < 2^31
  window : ∀ b, InHeap b → b < l.state.maxBlocks → l.state.testBlock b = true
  aligned : ∀ r ∈ l.live, r.1 / blockSize * blockSize = r.1
  inside : ∀ r ∈ l.live, r.1 / blockSize + r.2.toNat ≤ l.state.maxBlocks
  outside : ∀ r ∈ l.live, ∀ b ∈ blocksOf r, ¬ InHeap b

private theorem kept_allocate {l : PhysicalMem.Ledger} (hi : WindowKept l) (n : UInt32) :
    WindowKept ⟨(l.state.allocateBlocks n).2,
      if (l.state.allocateBlocks n).1 = 0 then l.live else ((l.state.allocateBlocks n).1, n) :: l.live⟩ := by
  have hm : l.state.maxBlocks ≤ 2^32 := by have := hi.bound; omega
  rcases allocateBlocks_found hi.bound n with he | ⟨b, hb, hend, he⟩
  · simpa [he] using hi
  · rw [he]
    have hdiv : b * blockSize / blockSize = b := Nat.mul_div_cancel _ (by decide)
    have hsub : ∀ r ∈ (if b * blockSize = 0 then l.live else (b * blockSize, n) :: l.live),
        r = (b * blockSize, n) ∨ r ∈ l.live := by
      intro r hr
      split at hr
      · exact .inr hr
      · simpa using hr
    refine ⟨by simpa using hi.bound, ?_, ?_, ?_, ?_⟩
    · intro c hc hlt
      have hset := hi.window c hc (by simpa using hlt)
      simp [testBlock_setRun hm hend, hset]
    · intro r hr
      rcases hsub r hr with rfl | hr
      · rw [hdiv]
      · exact hi.aligned r hr
    · intro r hr
      rcases hsub r hr with rfl | hr
      · simpa [hdiv] using hend
      · simpa using hi.inside r hr
    · intro r hr
      rcases hsub r hr with rfl | hr
      · -- a run that was found is clear, the window is set
        rintro c ⟨hc, hc'⟩ hin
        dsimp only at hc hc'
        rw [hdiv] at hc hc'
        obtain ⟨hlt, hclear⟩ := hb.free (c - b) (by omega)
        rw [show b + (c - b) = c by omega] at hlt hclear
        rw [hi.window c hin hlt] at hclear
        cases hclear
      · exact hi.outside r hr

private theorem kept_free {l : PhysicalMem.Ledger} (hi : WindowKept l) {a : Nat} {n : UInt32}
    (hr : (a, n) ∈ l.live) : WindowKept ⟨l.state.freeBlocks a n, l.live.erase (a, n)⟩ := by
  have hm : l.state.maxBlocks ≤ 2^32 := by have := hi.bound; omega
  have hin : a / blockSize + n.toNat ≤ l.state.maxBlocks := hi.inside _ hr
  have hmem : ∀ r ∈ l.live.erase (a, n), r ∈ l.live := fun r h => List.mem_of_mem_erase h
  rw [freeBlocks_eq hi.bound hin]
  refine ⟨by simpa using hi.bound, ?_, fun r h => hi.aligned r (hmem r h),
    fun r h => by simpa using hi.inside r (hmem r h), fun r h => hi.outside r (hmem r h)⟩
  intro c hc hlt
  have hset := hi.window c hc (by simpa using hlt)
  have hnot : ¬ (a / blockSize ≤ c ∧ c < a / blockSize + n.toNat) := fun h => hi.outside _ hr c h hc
  rw [testBlock_withUsed, testBlock_unsetRun hm hin, hset, decide_eq_false hnot]
  rfl

theorem WindowKept.step {l l' : PhysicalMem.Ledger} {c : PhysicalMem.Call} (hi : WindowKept l)
    (h : l.Step c l') : WindowKept l' := by
  have hm : l.state.maxBlocks ≤ 2^32 := by have := hi.bound; omega
  cases c with
  | allocateBlocks n => exact (show l' = _ from h) ▸ kept_allocate hi n
  | deinitializeMemoryRegion base size =>
    obtain rfl : l' = _ := h
    refine ⟨by simpa [deinitializeMemoryRegion] using hi.bound, ?_, hi.aligned,
      by simpa [deinitializeMemoryRegion] using hi.inside, hi.outside⟩
    intro c hc hlt
    have hlt' : c < l.state.maxBlocks := by simpa [deinitializeMemoryRegion] using hlt
    exact (testBlock_reserveRegion hm hlt' base size).mpr (.inl (hi.window c hc hlt'))
  | freeBlocks a n => obtain ⟨hr, rfl⟩ := h; exact kept_free hi hr

/-- The initialisation sets the window if nothing else lies there. -/
theorem windowKept_init {bt : BootInfo} {words : Nat → BitVec 32} {s : State} (hb : bt.HeapApart words)
    (h : initializeMemoryManager bt words = some s) : WindowKept ⟨s, []⟩ := by
  have hmax := initialize_maxBlocks h
  have hsmall : bt.maxBlocks < 2^31 := by
    have := hb.bitmap
    unfold BootInfo.bitmapBytes at this
    omega
  refine ⟨hmax ▸ hsmall, ?_, by simp, by simp, by simp⟩
  intro b hin hlt
  have hb' : b < bt.maxBlocks := hmax ▸ hlt
  rw [initialize_eq_afterWalk] at h
  obtain ⟨es, hes, rfl⟩ := Option.map_eq_some_iff.mp h
  refine (testBlock_afterInit (by omega) hb').mpr ?_
  by_cases hoffer : Offered es b
  · have hav : bt.Available b := ⟨es, (BootInfo.met_undisturbed hb.map).symm.trans hes, hoffer⟩
    exact .inr (.inl (hb.window b hin hb' hav))
  · exact .inl hoffer

/-- The heap's blocks tile its window, and every live size is one that ALIGN8 can round. -/
def HeapKept (l : Kmalloc.Ledger) : Prop :=
  (∃ bs, l.Inv bs) ∧ ∀ r ∈ l.live, r.2.toNat + 7 < 2^64

private theorem HeapKept.step {l l' : Kmalloc.Ledger} {c : Kmalloc.Call} (hi : HeapKept l)
    (hc : ∀ size, c = .kmalloc size → size.toNat + 7 < 2^64 ∧ c.NoWrap l.heap)
    (h : l.Step c l') : HeapKept l' := by
  obtain ⟨⟨bs, hinv⟩, hsize⟩ := hi
  cases c with
  | kmalloc size =>
    obtain ⟨hlt, hw⟩ := hc size rfl
    refine ⟨hinv.step hw h, ?_⟩
    obtain ⟨_, p, _, _, rfl⟩ := h
    intro r hr
    dsimp only at hr
    split at hr
    · exact hsize r hr
    · rcases List.mem_cons.mp hr with rfl | hr
      · exact hlt
      · exact hsize r hr
  | kfree ptr =>
    refine ⟨hinv.step (c := .kfree ptr) trivial h, ?_⟩
    obtain ⟨_, rfl⟩ := h
    exact fun r hr => hsize r (List.mem_filter.mp hr).1

private theorem HeapKept.inside {l : Kmalloc.Ledger} (hi : HeapKept l) {r : Nat × UInt64} (hr : r ∈ l.live) :
    0x200000 ≤ r.1 ∧ r.1 + r.2.toNat ≤ 0x500000 := by
  obtain ⟨⟨bs, hinv⟩, hsize⟩ := hi
  obtain ⟨b, hb, hp, -, hsz⟩ := hinv.live r hr
  have hle : r.2.toNat ≤ Kmalloc.align8 r.2.toNat := by
    have := hsize r hr
    unfold Kmalloc.align8
    rw [add64_eq (by omega)]
    omega
  have hsmall := hinv.size_small hb
  omega

private theorem kept {s : State} {cells : Kmalloc.Cells} {k : Allocators} {calls : List Call}
    (hs : WindowKept ⟨s, []⟩) (hr : Run Allocators.FitStep (.start s cells) calls k) :
    WindowKept k.blocks ∧ HeapKept k.heap := by
  refine hr.invariant (fun k => WindowKept k.blocks ∧ HeapKept k.heap) ?_
    ⟨hs, ⟨[], Kmalloc.inv_init cells⟩, by simp [Allocators.start]⟩
  rintro k c k' ⟨hw, hh⟩ ⟨hc, h⟩
  cases c with
  | blocks c =>
    obtain ⟨hstep, heq⟩ := h
    exact ⟨hw.step hstep, heq ▸ hh⟩
  | heap c =>
    obtain ⟨hstep, heq⟩ := h
    exact ⟨heq ▸ hw, hh.step (fun size he => by subst he; exact hc) hstep⟩

/-- If the heap window was not left to the block allocator, then in all runs
whose `kmalloc` sizes do not wrap no run of blocks meets a heap allocation,
also not one of another moment. -/
theorem allocators_apart {bt : BootInfo} {words : Nat → BitVec 32} {s : State} {cells : Kmalloc.Cells}
    (hb : bt.HeapApart words) (hinit : initializeMemoryManager bt words = some s)
    {k k' : Allocators} {calls calls' : List Call}
    (hr : Run Allocators.FitStep (.start s cells) calls k)
    (hr' : Run Allocators.FitStep (.start s cells) calls' k') :
    ∀ r ∈ k.blocks.live, ∀ q ∈ k'.heap.live, Disjoint (blockBytes r) (Kmalloc.region q) := by
  have hs := windowKept_init hb hinit
  obtain ⟨hw, -⟩ := kept hs hr
  obtain ⟨-, hh⟩ := kept hs hr'
  intro r hr q hq
  obtain ⟨hlo, hhi⟩ := hh.inside hq
  rw [Set.disjoint_left]
  rintro x ⟨hx, hx'⟩ ⟨hy, hy'⟩
  have hal := hw.aligned r hr
  unfold blockSize at hal hx'
  refine hw.outside r hr (x / 4096) ⟨?_, ?_⟩ ⟨?_, ?_⟩
  · unfold blockSize; omega
  · unfold blockSize; omega
  · omega
  · omega

/-- An MBI at 0x9000 with one memory map tag, whose entries are all available. -/
def sampleBoot (regions : List (Nat × Nat)) (kernelEnd maxAddrUsed : UInt64) : BootInfo where
  mbiAddr := 0x9000
  mbi := fun i => (bytes32 (32 + 24 * regions.length) ++ bytes32 0 ++
    bytes32 6 ++ bytes32 (16 + 24 * regions.length) ++ bytes32 24 ++ bytes32 0 ++
    regions.flatMap (fun r => bytes32 r.1 ++ bytes32 0 ++ bytes32 r.2 ++ bytes32 0 ++ bytes32 1 ++ bytes32 0) ++
    bytes32 0 ++ bytes32 8).getD i 0
  kernelStart := 0x100000
  kernelEnd := kernelEnd
  maxAddrUsed := maxAddrUsed

/-- The extents of the entries of the map. -/
def PhysicalMem.BootInfo.extents (bt : BootInfo) : Option (List (Nat × Nat)) :=
  bt.entries.map fun es => es.map fun e => (e.baseAddr.toNat, e.length.toNat)

theorem mem_extents {bt : BootInfo} {rs : List (Nat × Nat)} (h : bt.extents = some rs)
    {es : List Boot.MmapEntry}
    (hes : bt.entries = some es) {e : Boot.MmapEntry}
    (he : e ∈ es) : (e.baseAddr.toNat, e.length.toNat) ∈ rs := by
  rw [BootInfo.extents, hes, Option.map_some, Option.some.injEq] at h
  exact h ▸ List.mem_map_of_mem he

private theorem first_calls {s : State} {p : Nat} (hp : (s.allocateBlocks 2).1 = p) (h0 : p ≠ 0) :
    ∃ k, Run Allocators.FitStep (.start s fun _ => 0#32) [.blocks (.allocateBlocks 2), .heap (.kmalloc 8)] k ∧
      k.blocks = ⟨(s.allocateBlocks 2).2, [(p, 2)]⟩ ∧ k.heap.live = [(0x200010, 8)] := by
  have hk : (Kmalloc.kmalloc (Kmalloc.kallocInit (fun _ => 0#32)) 1 8).map Prod.fst = some 0x200010 := by
    decide +kernel
  obtain ⟨⟨_, t⟩, ht, rfl⟩ := Option.map_eq_some_iff.mp hk
  have hw : 0x200000 + 16 + Kmalloc.align8 8 < 2^64 := by decide +kernel
  let mid : Allocators := ⟨⟨(s.allocateBlocks 2).2, [(p, 2)]⟩, ⟨Kmalloc.kallocInit fun _ => 0#32, []⟩⟩
  let last : Allocators := ⟨mid.blocks, ⟨t, [(0x200010, 8)]⟩⟩
  have hblock : (Allocators.start s fun _ => 0#32).FitStep (.blocks (.allocateBlocks 2)) mid :=
    ⟨trivial, by simp [mid, Ledger.Step, hp, h0, Allocators.start], rfl⟩
  have hheap : mid.FitStep (.heap (.kmalloc 8)) last := ⟨⟨by decide, hw⟩, ⟨1, _, t, ht, rfl⟩, rfl⟩
  exact ⟨last, .cons hblock (.cons hheap (.nil _)), rfl, rfl⟩

/-- A machine with memory below the heap window and above it: the second run of blocks
does not fit below. -/
theorem allocators_apart_small :
    ∃ s k, initializeMemoryManager
      (sampleBoot [(0x100000, 0x20000), (0x501000, 0x20000)] 0x108000 0x521000) (fun _ => 0#32) =
        some s ∧
      Run Allocators.FitStep (.start s fun _ => 0#32)
        [.blocks (.allocateBlocks 2), .heap (.kmalloc 8), .blocks (.allocateBlocks 0x18)] k ∧
      k.blocks.live = [(0x501000, 0x18), (0x109000, 2)] ∧ k.heap.live = [(0x200010, 8)] ∧
      ∀ r ∈ k.blocks.live, ∀ q ∈ k.heap.live, Disjoint (blockBytes r) (Kmalloc.region q) := by
  have hx : (sampleBoot [(0x100000, 0x20000), (0x501000, 0x20000)] 0x108000 0x521000).extents =
      some [(0x100000, 0x20000), (0x501000, 0x20000)] := by decide +kernel
  have hb : (sampleBoot [(0x100000, 0x20000), (0x501000, 0x20000)] 0x108000 0x521000).HeapApart fun _ =>
    0#32 := by
    refine ⟨by decide +kernel, BootInfo.undisturbed_of_same (by decide +kernel) (by decide +kernel), ?_⟩
    rintro b ⟨hlo, hhi⟩ - ⟨es, hes, e, he, -, hin, hlt⟩
    have hmem := mem_extents hx hes he
    simp only [List.mem_cons, Prod.mk.injEq, List.not_mem_nil, or_false] at hmem
    unfold add64 blockSize at *
    omega
  have ha : (initializeMemoryManager (sampleBoot [(0x100000, 0x20000), (0x501000, 0x20000)] 0x108000 0x521000)
      (fun _ => 0#32)).map (fun s => ((s.allocateBlocks 2).1, ((s.allocateBlocks 2).2.allocateBlocks 0x18).1)) =
        some (0x109000, 0x501000) := by decide +kernel
  obtain ⟨s, hs, hpair⟩ := Option.map_eq_some_iff.mp ha
  obtain ⟨hp, hq⟩ := Prod.mk.inj hpair
  obtain ⟨k, hr, hblocks, hheap⟩ := first_calls hp (by decide)
  let last : Allocators := ⟨⟨(k.blocks.state.allocateBlocks 0x18).2, [(0x501000, 0x18), (0x109000, 2)]⟩, k.heap⟩
  have hlast : k.FitStep (.blocks (.allocateBlocks 0x18)) last := by
    refine ⟨trivial, ?_, rfl⟩
    simp [last, Ledger.Step, hblocks, hq]
  have hrun : Run Allocators.FitStep (.start s fun _ => 0#32)
      [.blocks (.allocateBlocks 2), .heap (.kmalloc 8), .blocks (.allocateBlocks 0x18)] last :=
    hr.append (.cons hlast (.nil _))
  exact ⟨s, last, hs, hrun, rfl, hheap, allocators_apart hb hs hrun hrun⟩

/-- With memory at 2 MiB in the map, the first blocks handed out there hold the
first heap allocation. -/
theorem heap_window_handed_out :
    ∃ s k, initializeMemoryManager (sampleBoot [(0x100000, 0x4000), (0x200000, 0x20000)] 0x103000 0x220000)
        (fun _ => 0#32) = some s ∧
      Run Allocators.FitStep (.start s fun _ => 0#32) [.blocks (.allocateBlocks 2), .heap (.kmalloc 8)] k ∧
      ∃ r ∈ k.blocks.live, ∃ q ∈ k.heap.live, ¬ Disjoint (blockBytes r) (Kmalloc.region q) := by
  have ha : (initializeMemoryManager (sampleBoot [(0x100000, 0x4000), (0x200000, 0x20000)] 0x103000 0x220000)
      (fun _ => 0#32)).map (fun s => (s.allocateBlocks 2).1) = some 0x200000 := by decide +kernel
  obtain ⟨s, hs, hp⟩ := Option.map_eq_some_iff.mp ha
  obtain ⟨k, hr, hblocks, hheap⟩ := first_calls hp (by decide)
  refine ⟨s, k, hs, hr, (0x200000, 2), by simp [hblocks], (0x200010, 8), by simp [hheap], ?_⟩
  rw [Set.not_disjoint_iff]
  exact ⟨0x200010, by simp [blockBytes, blockSize], by simp [Kmalloc.region]⟩

end GeckoOS.Mem
