import GeckoOS.Mem.FreeList

/-! `kmalloc` at the limits of its arithmetic: sizes that ALIGN8 or the test for
the end of the heap wraps around. -/
namespace GeckoOS.Mem.Kmalloc
open Lib Cells

/-- What a call that returned `p` and left `t` promises: NULL, or `size` bytes inside
the heap, recorded in full, with `heap_ptr` not in front of their end. -/
def Respects (size : UInt64) (p : Nat) (t : State) : Prop :=
  p = 0 ∨ 0x200000 ≤ p ∧ p + size.toNat ≤ 0x500000 ∧ ((size.toNat + 7) / 8 * 8 : Nat) ≤
    (t.cells (p - 16)).toInt ∧
    p + (t.cells (p - 16)).toInt ≤ t.heapPtr

/-- Neither ALIGN8 nor the test of `create_block` wraps around. -/
def Fits (s : State) (size : UInt64) : Prop :=
  size.toNat + 7 < 2^64 ∧ s.heapPtr + blockHeader + align8 size.toNat < 2^64

/-- There is no room even for the size that is left of the request. -/
def Refused (s : State) (size : UInt64) : Prop :=
  (∀ b, OnFreeList s b → s.cells.free b = true → s.cells.size b < align8 size.toNat) ∧
    s.heapEnd < add64 (add64 s.heapPtr blockHeader) (align8 size.toNat)

/-- The condition on a call: a size that fits or is refused, and no block that is on
the free list already is freed. -/
def Call.Limited (s : State) : Call → Prop
  | .kmalloc size => Fits s size ∨ Refused s size
  | .kfree ptr => ¬ OnFreeList s (ptr - 16)

def Ledger.LimitedStep (l : Ledger) (c : Call) (l' : Ledger) : Prop := c.Limited l.heap ∧ l.Step c l'

variable {s t : State} {l : Ledger} {bs fl : List Nat} {size : UInt64} {fuel p b : Nat}

/-- A search that finds nothing has seen no block that would do. -/
theorem findFreeFrom_nothing {m : Cells} {n : Nat} (h : findFreeFrom m n fuel p = some 0)
    (hb : OnWalk m.next (· = 0) p b) (hf : m.free b = true) : m.size b < n := by
  induction fuel generalizing p with
  | zero => cases h
  | succ fuel ih =>
    have hp : p ≠ 0 := hb.not_stop_start
    rw [findFreeFrom, if_neg hp] at h
    split at h
    · exact absurd (Option.some.inj h) hp
    · next hno =>
      have hcases : b = p ∨ OnWalk m.next (· = 0) (m.next p) b := Iff.mp (OnWalk.iff_head hp) hb
      rcases hcases with rfl | hb
      · by_contra hle
        exact hno ⟨hf, by omega⟩
      · exact ih h hb

/-- Sizes that fit into an `int` are recorded as they are. -/
theorem toInt_of_size {m : Cells} (h : m.size b < 2^31) : (m b).toInt = m.size b := by
  have hlo := BitVec.le_toInt (m b)
  have hhi := BitVec.toInt_lt (x := m b)
  unfold Cells.size u64 at *
  omega

theorem createBlock_eq_none {n : Nat} (h : createBlock s n = none) :
    s.heapEnd < add64 (add64 s.heapPtr blockHeader) n := by
  unfold createBlock at h
  split at h
  · assumption
  · cases h

theorem createBlock_eq_some {n : Nat} (h : createBlock s n = some (b, t)) :
    ¬ s.heapEnd < add64 (add64 s.heapPtr blockHeader) n := by
  unfold createBlock at h
  split at h
  · cases h
  · assumption

theorem align8_eq_roundUp (h : size.toNat + 7 < 2^64) : align8 size.toNat = (size.toNat + 7) / 8 * 8 := by
  rw [align8, add64_eq h]

/-- Only sizes beyond the heap wrap around, and no pointer respects them. -/
theorem huge_of_not_fits (hi : l.Inv bs) (h : ¬ Fits l.heap size) : 0x500000 < size.toNat := by
  have htop := hi.top
  have hbelow := hi.below
  by_cases hround : size.toNat + 7 < 2^64
  · have hsum : ¬ l.heap.heapPtr + blockHeader + align8 size.toNat < 2^64 := fun hlt => h ⟨hround, hlt⟩
    rw [align8_eq_roundUp hround] at hsum
    unfold blockHeader at hsum
    omega
  · omega

theorem not_respects_of_huge (hp : p ≠ 0) (hsize : 0x500000 < size.toNat) : ¬ Respects size p t := by
  rintro (hzero | ⟨-, hend, -⟩)
  · exact hp hzero
  · omega

namespace Ledger.ListInv

/-- A block of the row that is at least as large as the request. -/
private theorem respects_block {n : Nat} (hb : 0x200000 ≤ b) (hround : size.toNat + 7 < 2^64)
    (hn : align8 size.toNat ≤ t.cells.size b) (hend : b + 16 + t.cells.size b ≤ n) (htop : n ≤ 0x500000)
    (hptr : n ≤ t.heapPtr) : Respects size (b + 16) t := by
  have hint : (t.cells b).toInt = t.cells.size b := toInt_of_size (by omega)
  rw [align8_eq_roundUp hround] at hn
  right
  rw [Nat.add_sub_cancel, hint]
  refine ⟨by omega, by omega, by exact_mod_cast hn, ?_⟩
  exact_mod_cast hend.trans hptr

theorem respects_fresh (hi : l.ListInv bs fl) (hfit : Fits l.heap size)
    (hc : createBlock l.heap (align8 size.toNat) = some (b, t)) : Respects size (b + 16) t := by
  obtain ⟨rfl, -, -, hptr, hle, -, hsize, -⟩ := hi.inv.createBlock_cases (align8_dvd _) hfit.2 hc
  have hlo := hi.inv.tiles.le
  have htop := hi.inv.top
  exact respects_block hlo hfit.1 hsize.ge (by omega) (htop ▸ hle) (Nat.le_refl _)

theorem respects_reuse (hi : l.ListInv bs fl) (hb : b ∈ bs) (hround : size.toNat + 7 < 2^64)
    (hn : align8 size.toNat ≤ l.heap.cells.size b) :
    Respects size (b + 16) (l.heap.withCells
      (splitBlock (l.heap.cells.setFree b 0) b (align8 size.toNat))) := by
  obtain ⟨hlo, hhi⟩ := hi.inv.size_small hb
  have hbounds := hi.inv.tiles.bounds hb
  have htop := hi.inv.top
  have hbelow := hi.inv.below
  obtain ⟨-, -, hcut⟩ := splitBlock_cases l.heap.cells hn (by omega)
  generalize splitBlock (l.heap.cells.setFree b 0) b (align8 size.toNat) = m' at *
  have hsize : align8 size.toNat ≤ m'.size b ∧ m'.size b ≤ l.heap.cells.size b := by
    rcases hcut with ⟨_, h, _⟩ | ⟨_, h, _⟩ <;> omega
  refine respects_block (n := l.heap.heapPtr) hlo hround hsize.1 ?_ (htop ▸ hbelow) (Nat.le_refl _)
  dsimp only [State.withCells]
  omega

/-- A call that returns respects its size exactly if the size meets the condition. -/
theorem respects_iff (hi : l.ListInv bs fl) (h : kmalloc l.heap fuel size = some (p, t)) :
    Respects size p t ↔ Call.Limited l.heap (.kmalloc size) := by
  have htop := hi.inv.top
  have hbelow := hi.inv.below
  rcases kmalloc_cases h with ⟨rfl, -, hfind, hnone⟩ | ⟨-, hc, rfl⟩ | ⟨b, hb, hf, rfl, rfl⟩
  · exact iff_of_true (.inl rfl)
      (.inr ⟨fun b hb hf => findFreeFrom_nothing hfind hb hf, createBlock_eq_none hnone⟩)
  · have hptr : add64 l.heap.heapPtr blockHeader = l.heap.heapPtr + 16 :=
      add64_eq (by unfold blockHeader; omega)
    rw [hptr]
    constructor
    · intro hres
      by_contra hno
      exact not_respects_of_huge (by omega) (huge_of_not_fits hi.inv fun hfit => hno (.inl hfit)) hres
    · rintro (hfit | hrefused)
      · exact hi.respects_fresh hfit hc
      · exact absurd hrefused.2 (createBlock_eq_some hc)
  · obtain ⟨hm, hfree, hn⟩ := hi.inv.found hf hb
    obtain ⟨hlo, hhi⟩ := hi.inv.size_small hm
    have hptr : add64 b blockHeader = b + 16 := add64_eq (by unfold blockHeader; omega)
    rw [hptr]
    constructor
    · intro hres
      by_contra hno
      exact not_respects_of_huge (by omega) (huge_of_not_fits hi.inv fun hfit => hno (.inl hfit)) hres
    · rintro (hfit | hrefused)
      · exact hi.respects_reuse hm hfit.1 hn
      · have hlisted : OnFreeList l.heap b := hi.list.onWalk_iff.mpr (hi.free b hm hfree)
        have := hrefused.1 b hlisted hfree
        omega

/-- Every search over the list ends, so every call returns. -/
theorem returns (hi : l.ListInv bs fl) (size : UInt64) :
    ∃ fuel p t, kmalloc l.heap fuel size = some (p, t) := by
  obtain ⟨b, hb⟩ := findFreeFrom_returns hi.list (align8 size.toNat)
  refine ⟨fl.length + 1, ?_⟩
  unfold kmalloc findFreeBlock
  dsimp only
  rw [hb]
  cases b with
  | zero =>
    cases createBlock l.heap (align8 size.toNat) with
    | none => exact ⟨0, l.heap, rfl⟩
    | some r => exact ⟨_, _, rfl⟩
  | succ b => exact ⟨_, _, rfl⟩

theorem limited_step (hi : l.ListInv bs fl) {c : Call} {l' : Ledger} (hc : c.Limited l.heap) (h : l.Step c l') :
    ∃ bs' fl', l'.ListInv bs' fl' := by
  cases c with
  | kfree ptr => exact ⟨_, _, hi.kfree_step hc h⟩
  | kmalloc size =>
    rcases hc with hfit | hrefused
    · exact hi.kmalloc_step hfit.2 h
    · obtain ⟨fuel, p, t, hk, rfl⟩ := h
      rcases kmalloc_cases hk with ⟨rfl, rfl, -⟩ | ⟨-, hcreate, -⟩ | ⟨b, hb, hf, -⟩
      · exact ⟨bs, fl, hi⟩
      · exact absurd hrefused.2 (createBlock_eq_some hcreate)
      · obtain ⟨hm, hfree, hn⟩ := hi.inv.found hf hb
        have := hrefused.1 b (hi.list.onWalk_iff.mpr (hi.free b hm hfree)) hfree
        omega

end Ledger.ListInv

/-- As long as every call meets the condition, every `kmalloc` returns, and respects
its size exactly if the condition holds of it too. -/
theorem kmalloc_respects_iff (m : Cells) {calls : List Call} {l : Ledger}
    (hr : Run Ledger.LimitedStep ⟨kallocInit m, []⟩ calls l) (size : UInt64) :
    (∃ fuel p t, kmalloc l.heap fuel size = some (p, t)) ∧
      ∀ fuel p t, kmalloc l.heap fuel size = some (p, t) →
        (Respects size p t ↔ Call.Limited l.heap (.kmalloc size)) := by
  obtain ⟨bs, fl, hi⟩ := hr.invariant (fun l => ∃ bs fl, Ledger.ListInv l bs fl)
    (fun l c l' ⟨bs, fl, hi⟩ ⟨hc, h⟩ => hi.limited_step hc h) ⟨[], [], inv_init m, rfl, by simp, by simp⟩
  exact ⟨hi.returns size, fun fuel p t h => hi.respects_iff h⟩

/-- A hundred bytes after eight. -/
theorem kmalloc_respects_iff_second :
    ∃ l, Run Ledger.LimitedStep ⟨kallocInit (fun _ => 0#32), []⟩ [.kmalloc 8] l ∧
      ∃ fuel p t, kmalloc l.heap fuel 100 = some (p, t) ∧ Respects 100 p t := by
  have hk : (kmalloc (kallocInit (fun _ => 0#32)) 1 8).map (fun r => (r.1, r.2.heapPtr)) =
      some (0x200010, 0x200018) := by decide +kernel
  obtain ⟨⟨p, t⟩, ht, he⟩ := Option.map_eq_some_iff.mp hk
  obtain ⟨rfl, hptr⟩ := Prod.mk.inj he
  have hfit : Fits (kallocInit fun _ => 0#32) 8 := ⟨by decide, by with_unfolding_all decide +kernel⟩
  have hr : Run Ledger.LimitedStep ⟨kallocInit (fun _ => 0#32), []⟩ [.kmalloc 8] ⟨t, [(0x200010, 8)]⟩ :=
    .cons ⟨.inl hfit, 1, _, t, ht, rfl⟩ (.nil _)
  obtain ⟨⟨fuel, p, t', hrun⟩, hiff⟩ := kmalloc_respects_iff _ hr 100
  refine ⟨_, hr, fuel, p, t', hrun, (hiff fuel p t' hrun).mpr (.inl ⟨by decide, ?_⟩)⟩
  have halign : align8 (100 : UInt64).toNat = 104 := by decide +kernel
  have hptr' : t.heapPtr = 0x200018 := hptr
  rw [halign, hptr']
  decide

/-- The largest sizes: the whole request is rounded to 0 bytes, or is recorded as
-8 with `heap_ptr` in the middle of the block's own header. -/
theorem kmalloc_wraps :
    (∃ t, kmalloc (kallocInit fun _ => 0#32) 1 0xFFFFFFFFFFFFFFFF = some (0x200010, t) ∧
      ¬ Respects 0xFFFFFFFFFFFFFFFF 0x200010 t ∧ (t.cells 0x200000).toInt = 0) ∧
    ∃ t, kmalloc (kallocInit fun _ => 0#32) 1 0xFFFFFFFFFFFFFFF8 = some (0x200010, t) ∧
      ¬ Respects 0xFFFFFFFFFFFFFFF8 0x200010 t ∧ (t.cells 0x200000).toInt = -8 ∧ t.heapPtr = 0x200008 := by
  constructor
  · have hk : (kmalloc (kallocInit fun _ => 0#32) 1 0xFFFFFFFFFFFFFFFF).map
      (fun r => (r.1, (r.2.cells 0x200000).toInt)) =
        some (0x200010, 0) := by decide +kernel
    obtain ⟨⟨p, t⟩, ht, he⟩ := Option.map_eq_some_iff.mp hk
    obtain ⟨rfl, hsize⟩ := Prod.mk.inj he
    exact ⟨t, ht, not_respects_of_huge (by decide) (by decide), hsize⟩
  · have hk : (kmalloc (kallocInit fun _ => 0#32) 1 0xFFFFFFFFFFFFFFF8).map
        (fun r => (r.1, (r.2.cells 0x200000).toInt, r.2.heapPtr)) = some (0x200010, -8, 0x200008) := by
          decide +kernel
    obtain ⟨⟨p, t⟩, ht, he⟩ := Option.map_eq_some_iff.mp hk
    obtain ⟨rfl, hrest⟩ := Prod.mk.inj he
    obtain ⟨hsize, hptr⟩ := Prod.mk.inj hrest
    exact ⟨t, ht, not_respects_of_huge (by decide) (by decide), hsize, hptr⟩

end GeckoOS.Mem.Kmalloc
