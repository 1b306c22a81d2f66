import GeckoOS.Lib.Runs
import GeckoOS.Mem.HeapTiling
import Mathlib.Data.List.Nodup
import Mathlib.Data.Set.Lattice
import Mathlib.Order.CompletePartialOrder
import Mathlib.Order.Interval.Set.Basic

/-! What each heap call does to the row of blocks, and the safety of whole runs. -/
namespace GeckoOS.Mem.Kmalloc
open Lib Cells

/-- A search that ends at a block ends at one reached from its start, free and large enough. -/
theorem findFreeFrom_found {m : Cells} {size fuel p b : Nat} {P : Nat → Prop}
    (hn : ∀ x, P x → x ≠ 0 → P (m.next x)) (hp : P p)
    (h : findFreeFrom m size fuel p = some b) (hb : b ≠ 0) :
    P b ∧ m.free b = true ∧ size ≤ m.size b := by
  induction fuel generalizing p with
  | zero => cases h
  | succ fuel ih =>
    rw [findFreeFrom] at h
    split at h
    · exact absurd (Option.some.inj h).symm hb
    · next hp0 =>
      split at h
      · next hf =>
        obtain rfl := Option.some.inj h
        exact ⟨hp, hf.1, hf.2⟩
      · exact ih (hn p hp hp0) h

/-- Every outcome of a `kmalloc` that returns: no room, a fresh block at the top,
or a free block taken over and split. -/
theorem kmalloc_cases {s t : State} {fuel p : Nat} {size : UInt64} (h : kmalloc s fuel size = some (p, t)) :
    (p = 0 ∧ t = s ∧ findFreeBlock s fuel (align8 size.toNat) = some 0 ∧
      createBlock s (align8 size.toNat) = none) ∨
    (findFreeBlock s fuel (align8 size.toNat) = some 0 ∧
      createBlock s (align8 size.toNat) = some (s.heapPtr, t) ∧ p = add64 s.heapPtr blockHeader) ∨
    (∃ b, b ≠ 0 ∧ findFreeBlock s fuel (align8 size.toNat) = some b ∧ p = add64 b blockHeader ∧
      t = s.withCells (splitBlock (s.cells.setFree b 0) b (align8 size.toNat))) := by
  unfold kmalloc at h
  dsimp only at h
  split at h
  · cases h
  · next hf =>
    split at h
    · next hc =>
      obtain ⟨rfl, rfl⟩ := Prod.mk.inj (Option.some.inj h)
      exact .inl ⟨rfl, rfl, hf, hc⟩
    · next b t' hc =>
      obtain ⟨rfl, rfl⟩ := Prod.mk.inj (Option.some.inj h)
      have hb : b = s.heapPtr := by
        unfold createBlock at hc
        split at hc
        · cases hc
        · exact (Prod.mk.inj (Option.some.inj hc)).1.symm
      subst hb
      exact .inr (.inl ⟨hf, hc, rfl⟩)
  · next b hb hf =>
    obtain ⟨rfl, rfl⟩ := Prod.mk.inj (Option.some.inj h)
    exact .inr (.inr ⟨b, hb, hf, rfl, rfl⟩)

/-- A pointer is two words. -/
private theorem next_lt (m : Cells) (b : Nat) : m.next b < 2^64 := by
  have hlow := (m (b+8)).isLt
  have hhigh := (m (b+12)).isLt
  rw [Cells.next]
  omega

/-- Splitting keeps the block whole, or cuts its tail off as a free block that
takes the old successor. Nothing outside the block changes. -/
theorem splitBlock_cases (m : Cells) {b n : Nat} (hn : n ≤ m.size b) (hb : b + 16 + m.size b < 2^31) :
    let m' := splitBlock (m.setFree b 0) b n
    OnlyTouches m m' b (b + 16 + m.size b) ∧ m'.free b = false ∧
    ((m.size b ≤ n + 16 ∧ m'.size b = m.size b ∧ m'.next b = m.next b) ∨
      (n + 16 < m.size b ∧ m'.size b = n ∧ m'.next b = b + 16 + n ∧
        m'.size (b+16+n) = m.size b - n - 16 ∧ m'.free (b+16+n) = true ∧
        m'.next (b+16+n) = m.next b)) := by
  intro m'
  have hfree := setFree_touches m 0 (le_refl b) (show b + 16 ≤ b + 16 + m.size b by omega)
  have hm' : m' = splitBlock (m.setFree b 0) b n := rfl
  unfold splitBlock at hm'
  rw [size_setFree, add64_eq (by unfold blockHeader; omega)] at hm'
  split at hm'
  · next hle =>
    rw [hm']
    exact ⟨hfree, free_setFree_zero m b, .inl ⟨hle, size_setFree m b 0, next_setFree m b 0⟩⟩
  · next hlt =>
    have hlt : n + 16 < m.size b := by unfold blockHeader at hlt; omega
    unfold blockHeader at hm'
    rw [add64_eq (a := b) (by omega), add64_eq (by omega), sub64_eq (a := m.size b) (by omega) hn,
      sub64_eq (by omega) (by omega)] at hm'
    generalize hc : b + 16 + n = c at *
    -- the five stores, in the source's order
    let m1 := (m.setFree b 0).setSize c (m.size b - n - 16)
    let m2 := m1.setFree c 1
    let m3 := m2.setNext c (m2.next b)
    let m4 := m3.setSize b n
    change m' = m4.setNext b c at hm'
    have hnext : m2.next b = m.next b := by
      rw [(setFree_touches m1 1 (le_refl c) le_rfl).next (by omega),
        (setSize_touches (m.setFree b 0) _ (le_refl c) le_rfl).next (by omega), next_setFree]
    have htail : OnlyTouches m3 m' b (b+16) := by
      rw [hm']
      exact (setSize_touches m3 n le_rfl le_rfl).trans (setNext_touches m4 c le_rfl le_rfl)
    have hsize : m3.size c = m.size b - n - 16 := by
      simp only [m3, m2, m1, size_setNext, size_setFree]
      exact size_setSize (by omega) _ _
    have hfr : m3.free c = true := by simp [m3, m2]
    have hnx : m3.next c = m.next b := by
      simp only [m3, hnext]
      exact next_setNext (next_lt m b) _ _
    have hfb : m3.free b = false := by
      rw [show m3.free b = (m.setFree b 0).free b from ?_]
      · exact free_setFree_zero m b
      · rw [(setNext_touches m2 _ (le_refl c) le_rfl).free (by omega),
          (setFree_touches m1 1 (le_refl c) le_rfl).free (by omega),
          (setSize_touches (m.setFree b 0) _ (le_refl c) le_rfl).free (by omega)]
    refine ⟨?_, ?_, .inr ⟨hlt, ?_, ?_, ?_, ?_, ?_⟩⟩
    · have hwide : OnlyTouches m3 m' b (b + 16 + m.size b) := fun x hx => htail x (by omega)
      have h3 : OnlyTouches (m.setFree b 0) m3 b (b + 16 + m.size b) :=
        ((setSize_touches _ _ (by omega) (by omega)).trans
          (setFree_touches m1 1 (by omega) (by omega))).trans (setNext_touches m2 _ (by omega) (by omega))
      exact (hfree.trans h3).trans hwide
    · rw [hm', free_setNext, free_setSize, hfb]
    · rw [hm', size_setNext]
      exact size_setSize (by omega) _ _
    · rw [hm']
      exact next_setNext (by omega) _ _
    · rw [htail.size (by omega), hsize]
    · rw [htail.free (by omega), hfr]
    · rw [htail.next (by omega), hnx]

inductive Call where
  | kmalloc (size : UInt64)
  | kfree (ptr : Nat)

/-- The heap and the live allocations, as pairs of pointer and requested size. -/
structure Ledger where
  heap : State
  live : List (Nat × UInt64)

/-- One call that returns. Only live pointers are freed. -/
def Ledger.Step (l : Ledger) : Call → Ledger → Prop
  | .kmalloc size, l' => ∃ fuel p h, kmalloc l.heap fuel size = some (p, h) ∧
      l' = ⟨h, if p = 0 then l.live else (p, size) :: l.live⟩
  | .kfree ptr, l' => ptr ∈ l.live.map Prod.fst ∧
      l' = ⟨kfree l.heap ptr, l.live.filter fun r => r.1 ≠ ptr⟩

/-- The bound check of `create_block` does not wrap around. -/
def Call.NoWrap (s : State) : Call → Prop
  | .kmalloc size => s.heapPtr + blockHeader + align8 size.toNat < 2^64
  | .kfree _ => True

/-- The blocks `bs` tile the used heap, list pointers lead to blocks only, and
live pointers are those of distinct blocks in use. -/
structure Ledger.Inv (l : Ledger) (bs : List Nat) : Prop where
  top : l.heap.heapEnd = 0x500000
  tiles : Tiles l.heap.cells 0x200000 bs l.heap.heapPtr
  below : l.heap.heapPtr ≤ l.heap.heapEnd
  head : l.heap.freeListHead = 0 ∨ l.heap.freeListHead ∈ bs
  next : ∀ b ∈ bs, l.heap.cells.next b = 0 ∨ l.heap.cells.next b ∈ bs
  live : ∀ r ∈ l.live, ∃ b ∈ bs, r.1 = b + 16 ∧ l.heap.cells.free b = false ∧
    align8 r.2.toNat ≤ l.heap.cells.size b
  distinct : (l.live.map Prod.fst).Nodup

theorem align8_dvd (x : Nat) : 8 ∣ align8 x := ⟨_, Nat.mul_comm _ _⟩

theorem le_align8 {x : Nat} (h : x < 2^63) : x ≤ align8 x := by
  unfold align8
  rw [add64_eq (by omega)]
  omega

theorem align8_eq {x : Nat} (hx : 8 ∣ x) (h : x < 2^63) : align8 x = x := by
  unfold align8
  rw [add64_eq (by omega)]
  omega

namespace Ledger.Inv
variable {l : Ledger} {bs : List Nat} {n b : Nat}

theorem size_small (hi : l.Inv bs) (hb : b ∈ bs) :
    0x200000 ≤ b ∧ b + 16 + l.heap.cells.size b ≤ 0x500000 := by
  have h := hi.tiles.bounds hb
  have := hi.below
  have := hi.top
  omega

/-- A fresh block: its header is the only thing written, just above the used heap. -/
theorem createBlock_cases (hi : l.Inv bs) {t : State} (hn : 8 ∣ n)
    (hw : l.heap.heapPtr + blockHeader + n < 2^64)
    (h : createBlock l.heap n = some (b, t)) :
    b = l.heap.heapPtr ∧ t.heapEnd = l.heap.heapEnd ∧ t.freeListHead = l.heap.freeListHead ∧
    t.heapPtr = b + 16 + n ∧ t.heapPtr ≤ l.heap.heapEnd ∧
    OnlyTouches l.heap.cells t.cells b (b + 16) ∧
    t.cells.size b = n ∧ t.cells.free b = false ∧ t.cells.next b = 0 := by
  have htop := hi.top
  have hdvd := (hi.tiles.aligned (by decide)).1
  unfold createBlock blockHeader at h
  unfold blockHeader at hw
  rw [add64_eq (a := l.heap.heapPtr) (b := 16) (by omega), add64_eq (a := l.heap.heapPtr + 16) hw] at h
  split at h
  · cases h
  · next hfit =>
    obtain ⟨rfl, rfl⟩ := Prod.mk.inj (Option.some.inj h)
    generalize hp : l.heap.heapPtr = p at *
    refine ⟨rfl, rfl, rfl, ?_, ?_, ?_, ?_, ?_, ?_⟩
    · rw [add64_eq (a := 16) (by omega), align8_eq (by omega) (by omega), add64_eq (by omega)]
      dsimp only
      omega
    · rw [add64_eq (a := 16) (by omega), align8_eq (by omega) (by omega), add64_eq (by omega)]
      dsimp only
      omega
    · exact ((setSize_touches _ _ le_rfl le_rfl).trans (setFree_touches _ _ le_rfl le_rfl)).trans
        (setNext_touches _ _ le_rfl le_rfl)
    · rw [size_setNext, size_setFree]
      exact size_setSize (by omega) _ _
    · rw [free_setNext, free_setFree_zero]
    · exact next_setNext (by decide) _ _

theorem fresh (hi : l.Inv bs) {t : State} {size : UInt64}
    (hw : l.heap.heapPtr + blockHeader + align8 size.toNat < 2^64)
    (h : createBlock l.heap (align8 size.toNat) = some (b, t)) :
    Ledger.Inv ⟨t, (b + 16, size) :: l.live⟩ (bs ++ [b]) := by
  obtain ⟨rfl, hend, hhead, hptr, hle, htouch, hsize, hfree, hnext⟩ :=
    hi.createBlock_cases (align8_dvd _) hw h
  have hold : ∀ c ∈ bs, c + 16 ≤ l.heap.heapPtr := fun c hc => by
    have := (hi.tiles.bounds hc).2
    omega
  refine ⟨hend.trans hi.top, ?_, hend ▸ hle, ?_, ?_, ?_, ?_⟩
  · rw [Tiles.append_iff]
    refine ⟨l.heap.heapPtr, hi.tiles.congr (fun c hc => htouch.size (.inl (hold c hc))), rfl, ?_, ?_⟩
    · rw [hsize]; exact align8_dvd _
    · rw [hsize]; exact hptr.symm
  · rw [hhead]
    exact hi.head.imp_right (fun hm => by simp [hm])
  · intro c hc
    rcases List.mem_append.mp hc with hc | hc
    · rw [htouch.next (.inl (hold c hc))]
      exact (hi.next c hc).imp_right (fun hm => by simp [hm])
    · rw [List.mem_singleton.mp hc, hnext]
      exact .inl rfl
  · intro r hr
    rcases List.mem_cons.mp hr with rfl | hr
    · exact ⟨_, by simp, rfl, hfree, hsize.ge⟩
    · obtain ⟨c, hc, hp, hf, hs⟩ := hi.live r hr
      exact ⟨c, by simp [hc], hp, (htouch.free (.inl (hold c hc))).trans hf,
        (htouch.size (.inl (hold c hc))).symm ▸ hs⟩
  · refine List.nodup_cons.mpr ⟨fun hm => ?_, hi.distinct⟩
    obtain ⟨r, hr, hp⟩ := List.mem_map.mp hm
    obtain ⟨c, hc, hp', _⟩ := hi.live r hr
    have := hold c hc
    dsimp only at hp
    omega

/-- The block row after a free block was taken over: the same, or with one more
block cut from its tail. -/
theorem reuse (hi : l.Inv bs) {size : UInt64} (hb : b ∈ bs) (hf : l.heap.cells.free b = true)
    (hn : align8 size.toNat ≤ l.heap.cells.size b) :
    ∃ bs', Ledger.Inv ⟨l.heap.withCells (splitBlock (l.heap.cells.setFree b 0) b (align8 size.toNat)),
      (b + 16, size) :: l.live⟩ bs' ∧
      ∀ c, c ∈ bs' ↔ c ∈ bs ∨ c = b + 16 + align8 size.toNat ∧
        align8 size.toNat + 16 < l.heap.cells.size b := by
  have hsmall := hi.size_small hb
  have hd := align8_dvd size.toNat
  obtain ⟨htouch, hfree, hcut⟩ := splitBlock_cases l.heap.cells hn (by omega)
  generalize splitBlock (l.heap.cells.setFree b 0) b (align8 size.toNat) = m' at *
  generalize hn' : align8 size.toNat = n at *
  have hother : ∀ c ∈ bs, c ≠ b → c + 16 ≤ b ∨ b + 16 + l.heap.cells.size b ≤ c := fun c hc hne => by
    rcases hi.tiles.apart hc hb hne with h | h
    · exact .inl (by omega)
    · exact .inr h
  have hsize : n ≤ m'.size b := by
    rcases hcut with ⟨_, h, _⟩ | ⟨_, h, _⟩ <;> omega
  have hlive : ∀ r ∈ (b + 16, size) :: l.live, ∃ c ∈ bs, r.1 = c + 16 ∧ m'.free c = false ∧
      align8 r.2.toNat ≤ m'.size c := by
    intro r hr
    rcases List.mem_cons.mp hr with rfl | hr
    · exact ⟨b, hb, rfl, hfree, hn' ▸ hsize⟩
    · obtain ⟨c, hc, hp, hfc, hs⟩ := hi.live r hr
      have hne : c ≠ b := by rintro rfl; rw [hf] at hfc; cases hfc
      exact ⟨c, hc, hp, (htouch.free (hother c hc hne)).trans hfc,
        (htouch.size (hother c hc hne)).symm ▸ hs⟩
  have hdist : (((b + 16, size) :: l.live).map Prod.fst).Nodup := by
    refine List.nodup_cons.mpr ⟨fun hm => ?_, hi.distinct⟩
    obtain ⟨r, hr, hp⟩ := List.mem_map.mp hm
    obtain ⟨c, hc, hp', hfc, _⟩ := hi.live r hr
    obtain rfl : c = b := by dsimp only at hp; omega
    rw [hf] at hfc
    cases hfc
  have hnext : ∀ c ∈ bs, c ≠ b → m'.next c = 0 ∨ m'.next c ∈ bs := fun c hc hne => by
    rw [htouch.next (hother c hc hne)]
    exact hi.next c hc
  rcases hcut with ⟨hle, hsb, hnb⟩ | ⟨hlt, hsb, hnb, hsc, hfc, hnc⟩
  · refine ⟨bs, ⟨hi.top, hi.tiles.congr ?_, hi.below, hi.head, ?_, hlive, hdist⟩,
      fun c => ⟨.inl, fun h => h.resolve_right (fun h' => by omega)⟩⟩
    · intro c hc
      by_cases hne : c = b
      · rw [hne]; exact hsb
      · exact htouch.size (hother c hc hne)
    · intro c hc
      by_cases hne : c = b
      · rw [hne]; exact hnb.symm ▸ hi.next b hb
      · exact hnext c hc hne
  · obtain ⟨l₁, l₂, hbs⟩ := List.append_of_mem hb
    have hnd : (l₁ ++ b :: l₂).Nodup := hbs ▸ hi.tiles.nodup
    have hnot : ∀ c ∈ l₁ ++ l₂, c ∈ bs ∧ c ≠ b := by
      intro c hc
      have hm := List.nodup_middle.mp hnd
      refine ⟨?_, fun he => (List.nodup_cons.mp hm).1 (he ▸ hc)⟩
      rw [hbs]
      simp only [List.mem_append, List.mem_cons] at hc ⊢
      tauto
    have hmem : ∀ c, c ∈ l₁ ++ b :: (b + 16 + n) :: l₂ ↔ c ∈ bs ∨ c = b + 16 + n := by
      intro c
      simp only [hbs, List.mem_append, List.mem_cons]
      tauto
    have hsub : ∀ c ∈ bs, c ∈ l₁ ++ b :: (b + 16 + n) :: l₂ := fun c hc => (hmem c).mpr (.inl hc)
    have htiles : Tiles m' 0x200000 (l₁ ++ b :: (b + 16 + n) :: l₂) l.heap.heapPtr := by
      refine (hbs ▸ hi.tiles).cut (fun c hc => ?_) hd hlt hsb hsc
      exact htouch.size (hother c (hnot c hc).1 (hnot c hc).2)
    refine ⟨l₁ ++ b :: (b + 16 + n) :: l₂, ⟨hi.top, htiles, hi.below,
      hi.head.imp_right (hsub _), ?_, ?_, hdist⟩, fun c => (hmem c).trans (by simp [hlt])⟩
    · intro c hc
      by_cases hcb : c = b
      · rw [hcb]
        exact .inr (by simp [State.withCells, hnb])
      by_cases hcc : c = b + 16 + n
      · rw [hcc]
        dsimp only [State.withCells]
        rw [hnc]
        exact (hi.next b hb).imp_right (hsub _)
      · have hc' : c ∈ l₁ ++ l₂ := by
          simp only [List.mem_append, List.mem_cons] at hc ⊢
          tauto
        exact (hnext c (hnot c hc').1 hcb).imp_right (hsub _)
    · intro r hr
      obtain ⟨c, hc, h⟩ := hlive r hr
      exact ⟨c, hsub c hc, h⟩

/-- The header found by a search is a block of the row. -/
theorem found (hi : l.Inv bs) {fuel : Nat} (h : findFreeBlock l.heap fuel n = some b) (hb : b ≠ 0) :
    b ∈ bs ∧ l.heap.cells.free b = true ∧ n ≤ l.heap.cells.size b := by
  obtain ⟨hm, hf, hs⟩ := findFreeFrom_found (P := fun x => x = 0 ∨ x ∈ bs)
    (fun x hx hx0 => hi.next x (hx.resolve_left hx0)) hi.head h hb
  exact ⟨hm.resolve_left hb, hf, hs⟩

theorem kmalloc_step (hi : l.Inv bs) {size : UInt64} {l' : Ledger}
    (hw : Call.NoWrap l.heap (.kmalloc size)) (h : l.Step (.kmalloc size) l') : ∃ bs', l'.Inv bs' := by
  obtain ⟨fuel, p, t, hk, rfl⟩ := h
  rcases kmalloc_cases hk with ⟨rfl, rfl, -⟩ | ⟨_, hc, rfl⟩ | ⟨b, hb, hf, rfl, rfl⟩
  · exact ⟨bs, hi⟩
  · have htop := hi.top
    have hbel := hi.below
    have he : add64 l.heap.heapPtr blockHeader = l.heap.heapPtr + 16 := add64_eq (by unfold blockHeader; omega)
    rw [he, if_neg (by omega)]
    exact ⟨_, hi.fresh hw hc⟩
  · obtain ⟨hm, hfr, hs⟩ := hi.found hf hb
    have hsmall := hi.size_small hm
    have he : add64 b blockHeader = b + 16 := add64_eq (by unfold blockHeader; omega)
    rw [he, if_neg (by omega)]
    obtain ⟨bs', hi', _⟩ := hi.reuse hm hfr hs
    exact ⟨bs', hi'⟩

/-- A freed block goes to the head of the list; only its header is written. -/
theorem kfree_eq (hi : l.Inv bs) {ptr : Nat} (hp : ptr ∈ l.live.map Prod.fst) :
    ∃ b ∈ bs, ptr = b + 16 ∧ kfree l.heap ptr =
      { l.heap with
        cells := (l.heap.cells.setFree b 1).setNext b l.heap.freeListHead
        freeListHead := b } := by
  obtain ⟨r, hr, rfl⟩ := List.mem_map.mp hp
  obtain ⟨b, hb, he, _⟩ := hi.live r hr
  have hsmall := hi.size_small hb
  refine ⟨b, hb, he, ?_⟩
  unfold kfree blockHeader
  rw [he, if_neg (by omega), sub64_eq (by omega) (by omega)]
  rfl

theorem head_lt (hi : l.Inv bs) : l.heap.freeListHead < 2^64 := by
  rcases hi.head with h | h
  · omega
  · have := hi.size_small h
    omega

theorem kfree_step (hi : l.Inv bs) {ptr : Nat} {l' : Ledger} (h : l.Step (.kfree ptr) l') : l'.Inv bs := by
  obtain ⟨hp, rfl⟩ := h
  obtain ⟨b, hb, rfl, he⟩ := hi.kfree_eq hp
  rw [he]
  have htouch : OnlyTouches l.heap.cells ((l.heap.cells.setFree b 1).setNext b l.heap.freeListHead) b (b+16) :=
    (setFree_touches _ _ le_rfl le_rfl).trans (setNext_touches _ _ le_rfl le_rfl)
  have hother : ∀ c ∈ bs, c ≠ b → c + 16 ≤ b ∨ b + 16 ≤ c := fun c hc hne => by
    rcases hi.tiles.apart hc hb hne with h | h <;> omega
  refine ⟨hi.top, hi.tiles.congr ?_, hi.below, .inr hb, ?_, ?_,
    (hi.distinct.sublist (List.filter_sublist.map Prod.fst))⟩
  · intro c hc
    by_cases hne : c = b
    · rw [hne, size_setNext, size_setFree]
    · exact htouch.size (hother c hc hne)
  · intro c hc
    by_cases hne : c = b
    · rw [hne]
      dsimp only
      rw [next_setNext hi.head_lt]
      exact hi.head
    · dsimp only
      rw [htouch.next (hother c hc hne)]
      exact hi.next c hc
  · intro r hr
    obtain ⟨hr, hne⟩ := List.mem_filter.mp hr
    obtain ⟨c, hc, hp', hf, hs⟩ := hi.live r hr
    have hcb : c ≠ b := by rintro rfl; simp [hp'] at hne
    exact ⟨c, hc, hp', (htouch.free (hother c hc hcb)).trans hf,
      (htouch.size (hother c hc hcb)).symm ▸ hs⟩

theorem step (hi : l.Inv bs) {c : Call} {l' : Ledger} (hw : c.NoWrap l.heap) (h : l.Step c l') :
    ∃ bs', l'.Inv bs' := by
  cases c with
  | kmalloc size => exact hi.kmalloc_step hw h
  | kfree ptr => exact ⟨bs, hi.kfree_step h⟩

end Ledger.Inv

theorem inv_init (m : Cells) : Ledger.Inv ⟨kallocInit m, []⟩ [] :=
  ⟨rfl, rfl, by simp [kallocInit], .inl rfl, by simp, by simp, .nil⟩

/-- The bytes of an allocation, as requested, and of a block header. -/
def region (r : Nat × UInt64) : Set Nat := Set.Ico r.1 (r.1 + r.2.toNat)
def headerBytes (b : Nat) : Set Nat := Set.Ico b (b + 16)

/-- Sizes of `kmalloc` calls are below `bound`. -/
def Call.SizeBelow (bound : Nat) : Call → Prop
  | .kmalloc size => size.toNat < bound
  | .kfree _ => True

private theorem noWrap_of_small {l : Ledger} {bs : List Nat} (hi : l.Inv bs) {c : Call}
    (hc : c.SizeBelow (2^63)) : c.NoWrap l.heap := by
  cases c with
  | kmalloc size =>
    have hlt : size.toNat < 2^63 := hc
    have := hi.top
    have := hi.below
    change l.heap.heapPtr + 16 + add64 size.toNat 7 / 8 * 8 < 2^64
    rw [add64_eq (by omega)]
    omega
  | kfree ptr => trivial

private theorem live_small {l l' : Ledger} {c : Call} (hc : c.SizeBelow (2^63))
    (hl : ∀ r ∈ l.live, r.2.toNat < 2^63) (h : l.Step c l') : ∀ r ∈ l'.live, r.2.toNat < 2^63 := by
  cases c with
  | kmalloc size =>
    obtain ⟨_, p, _, _, rfl⟩ := h
    intro r hr
    dsimp only at hr
    split at hr
    · exact hl r hr
    · rcases List.mem_cons.mp hr with rfl | hr
      · exact hc
      · exact hl r hr
  | kfree ptr =>
    obtain ⟨_, rfl⟩ := h
    exact fun r hr => hl r (List.mem_filter.mp hr).1

/-- After any calls that return, live regions are aligned and inside the heap
window, disjoint from each other and from every block header. -/
theorem heap_runs_safe (m : Cells) {calls : List Call} {l : Ledger}
    (hr : Run Ledger.Step ⟨kallocInit m, []⟩ calls l) (hs : ∀ c ∈ calls, c.SizeBelow (2^63)) :
    ∃ bs, Tiles l.heap.cells 0x200000 bs l.heap.heapPtr ∧
      (∀ r ∈ l.live, 8 ∣ r.1 ∧ 0x200000 ≤ r.1 ∧ r.1 + r.2.toNat ≤ 0x500000) ∧
      l.live.Pairwise (fun r r' => Disjoint (region r) (region r')) ∧
      ∀ r ∈ l.live, ∀ b ∈ bs, Disjoint (region r) (headerBytes b) := by
  obtain ⟨⟨bs, hi⟩, hsm⟩ := (hr.restrict hs).invariant
    (fun l => (∃ bs, Ledger.Inv l bs) ∧ ∀ r ∈ l.live, r.2.toNat < 2^63)
    (fun _ _ _ ⟨⟨_, hi⟩, hl⟩ ⟨hc, h⟩ => ⟨hi.step (noWrap_of_small hi hc) h, live_small hc hl h⟩)
    ⟨⟨[], inv_init m⟩, by simp⟩
  have hlive : ∀ r ∈ l.live, ∃ b ∈ bs, r.1 = b + 16 ∧ r.2.toNat ≤ l.heap.cells.size b := by
    intro r hr
    obtain ⟨b, hb, hp, _, hsz⟩ := hi.live r hr
    exact ⟨b, hb, hp, (le_align8 (hsm r hr)).trans hsz⟩
  refine ⟨bs, hi.tiles, ?_, ?_, ?_⟩
  · intro r hr
    obtain ⟨b, hb, hp, hsz⟩ := hlive r hr
    have hsmall := hi.size_small hb
    have hal := (hi.tiles.aligned (by decide)).2 b hb
    omega
  · refine (List.pairwise_map.mp hi.distinct).imp_of_mem (fun {r r'} hr hr' hne => ?_)
    obtain ⟨b, hb, hp, hsz⟩ := hlive r hr
    obtain ⟨b', hb', hp', hsz'⟩ := hlive r' hr'
    rw [Set.disjoint_left]
    rintro x ⟨h1, h2⟩ ⟨h3, h4⟩
    rcases hi.tiles.apart hb hb' (by omega) with h | h <;> omega
  · intro r hr b hb
    obtain ⟨c, hc, hp, hsz⟩ := hlive r hr
    rw [Set.disjoint_left]
    rintro x ⟨h1, h2⟩ ⟨h3, h4⟩
    by_cases hne : b = c
    · omega
    · rcases hi.tiles.apart hb hc hne with h | h <;> omega

/-- The pointers of four allocations after boot; the first is given back before the
third one, which splits its block, and the heap is too small for the last one. -/
theorem boot_calls : (do
    let r ← kmalloc (kallocInit fun _ => 0#32) 1 100
    let r₂ ← kmalloc r.2 1 8
    let r₃ ← kmalloc (kfree r₂.2 r.1) 2 24
    let r₄ ← kmalloc r₃.2 3 0x300000
    return (r.1, r₂.1, r₃.1, r₄.1)) = some (0x200010, 0x200088, 0x200010, 0) := by decide +kernel

theorem heap_runs_safe_split :
    ∃ l, Run Ledger.Step ⟨kallocInit (fun _ => 0#32), []⟩
      [.kmalloc 100, .kmalloc 8, .kfree 0x200010, .kmalloc 24, .kmalloc 0x300000] l ∧
      l.live = [(0x200010, 24), (0x200088, 8)] ∧ ∀ r ∈ l.live, r.1 + r.2.toNat ≤ 0x500000 := by
  obtain ⟨⟨p₁, t₁⟩, h₁, hrest⟩ := Option.bind_eq_some_iff.mp boot_calls
  obtain ⟨⟨p₂, t₂⟩, h₂, hrest⟩ := Option.bind_eq_some_iff.mp hrest
  obtain ⟨⟨p₃, t₃⟩, h₃, hrest⟩ := Option.bind_eq_some_iff.mp hrest
  obtain ⟨⟨p₄, t₄⟩, h₄, hrest⟩ := Option.bind_eq_some_iff.mp hrest
  obtain ⟨rfl, rfl, rfl, rfl⟩ : p₁ = 0x200010 ∧ p₂ = 0x200088 ∧ p₃ = 0x200010 ∧ p₄ = 0 := by
    simpa using hrest
  have hr : Run Ledger.Step ⟨kallocInit (fun _ => 0#32), []⟩
      [.kmalloc 100, .kmalloc 8, .kfree 0x200010, .kmalloc 24, .kmalloc 0x300000]
      ⟨t₄, [(0x200010, 24), (0x200088, 8)]⟩ :=
    .cons ⟨1, _, t₁, h₁, rfl⟩ (.cons ⟨1, _, t₂, h₂, rfl⟩ (.cons ⟨by simp, rfl⟩
      (.cons ⟨2, _, t₃, h₃, rfl⟩ (.cons ⟨3, _, t₄, h₄, rfl⟩ (.nil _)))))
  obtain ⟨_, _, hin, _⟩ := heap_runs_safe _ hr (by simp [Call.SizeBelow])
  exact ⟨_, hr, rfl, fun r h => (hin r h).2.2⟩

end GeckoOS.Mem.Kmalloc
