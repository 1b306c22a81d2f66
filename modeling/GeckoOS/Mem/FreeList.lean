import GeckoOS.Lib.Chain
import GeckoOS.Mem.HeapRuns

/-! The free list of the kernel heap. `kmalloc` takes a block over without
unlinking it, so a second `kfree` of the same block closes the list to a ring. -/
namespace GeckoOS.Mem.Kmalloc
open Lib Cells

/-- The list from `free_list_head` visits `fl` and ends at NULL. -/
def FreeListIs (s : State) (fl : List Nat) : Prop := Linked s.cells.next (· = 0) s.freeListHead fl

/-- The block is reached from `free_list_head`. -/
def OnFreeList (s : State) (b : Nat) : Prop := OnWalk s.cells.next (· = 0) s.freeListHead b

/-- The list is finite and acyclic, and every free block occurs in it exactly once. -/
def FreeListOk (s : State) : Prop :=
  ∃ fl, FreeListIs s fl ∧ fl.Nodup ∧
    ∀ bs, Tiles s.cells 0x200000 bs s.heapPtr → ∀ b ∈ bs, s.cells.free b = true → fl.count b = 1

/-- The condition on a call: the size check does not wrap, and a freed block is
not on the free list already. -/
def Call.Ok (s : State) : Call → Prop
  | .kmalloc size => Call.NoWrap s (.kmalloc size)
  | .kfree ptr => ¬ OnFreeList s (ptr - 16)

/-- A step that meets the condition. -/
def Ledger.OkStep (l : Ledger) (c : Call) (l' : Ledger) : Prop := c.Ok l.heap ∧ l.Step c l'

/-- The walk of `find_free_block` over a finite list ends, within its length. -/
theorem findFreeFrom_returns {m : Cells} {p : Nat} {fl : List Nat} (h : Linked m.next (· = 0) p fl)
    (size : Nat) : ∃ b, findFreeFrom m size (fl.length + 1) p = some b := by
  induction fl generalizing p with
  | nil => exact ⟨0, by rw [findFreeFrom, if_pos (show p = 0 from h)]⟩
  | cons x fl ih =>
    obtain ⟨rfl, hp, h⟩ := h
    rw [List.length_cons, findFreeFrom, if_neg hp]
    split
    · exact ⟨p, rfl⟩
    · exact ih h

/-- The invariant behind the list: it runs through blocks, and through all free ones. -/
structure Ledger.ListInv (l : Ledger) (bs fl : List Nat) : Prop where
  inv : l.Inv bs
  list : FreeListIs l.heap fl
  blocks : ∀ b ∈ fl, b ∈ bs
  free : ∀ b ∈ bs, l.heap.cells.free b = true → b ∈ fl

theorem Tiles.unique {m : Cells} {a e : Nat} {bs bs' : List Nat} (h : Tiles m a bs e)
    (h' : Tiles m a bs' e) : bs = bs' := by
  induction bs generalizing a bs' with
  | nil =>
    cases bs' with
    | nil => rfl
    | cons b bs' =>
      have hle := (show Tiles m a (b :: bs') a from (show a = e from h) ▸ h').2.2.le
      omega
  | cons b bs ih =>
    obtain ⟨rfl, _, h⟩ := h
    cases bs' with
    | nil =>
      have hle := h.le
      have he : b = e := h'
      omega
    | cons c bs' =>
      obtain ⟨rfl, _, h'⟩ := h'
      rw [ih h h']

namespace Ledger.ListInv
variable {l : Ledger} {bs fl : List Nat}

theorem ok (hi : l.ListInv bs fl) : FreeListOk l.heap := by
  refine ⟨fl, hi.list, hi.list.nodup, fun bs' ht b hb hf => ?_⟩
  rw [ht.unique hi.inv.tiles] at hb
  exact List.count_eq_one_of_mem hi.list.nodup (hi.free b hb hf)

theorem fresh (hi : l.ListInv bs fl) {t : State} {size : UInt64} {b : Nat}
    (hw : l.heap.heapPtr + blockHeader + align8 size.toNat < 2^64)
    (h : createBlock l.heap (align8 size.toNat) = some (b, t)) :
    Ledger.ListInv ⟨t, (b + 16, size) :: l.live⟩ (bs ++ [b]) fl := by
  obtain ⟨rfl, _, hhead, _, _, htouch, _, hfree, _⟩ := hi.inv.createBlock_cases (align8_dvd _) hw h
  have hold : ∀ c ∈ bs, c + 16 ≤ l.heap.heapPtr := fun c hc => by
    have := (hi.inv.tiles.bounds hc).2
    omega
  refine ⟨hi.inv.fresh hw h, ?_, fun c hc => by simp [hi.blocks c hc], ?_⟩
  · change Linked t.cells.next _ t.freeListHead fl
    rw [hhead]
    exact hi.list.congr (fun c hc => htouch.next (.inl (hold c (hi.blocks c hc))))
  · intro c hc hf
    rcases List.mem_append.mp hc with hc | hc
    · exact hi.free c hc ((htouch.free (.inl (hold c hc))).symm.trans hf)
    · rw [List.mem_singleton.mp hc] at hf
      exact absurd (hfree.symm.trans hf) (by decide)

/-- Taking over a listed block leaves it in the list; a cut tail is linked in behind it. -/
theorem reuse (hi : l.ListInv bs fl) {size : UInt64} {b : Nat} (hl : b ∈ fl)
    (hf : l.heap.cells.free b = true) (hn : align8 size.toNat ≤ l.heap.cells.size b) :
    ∃ bs' fl', Ledger.ListInv
      ⟨l.heap.withCells (splitBlock (l.heap.cells.setFree b 0) b (align8 size.toNat)),
        (b + 16, size) :: l.live⟩ bs' fl' := by
  have hb := hi.blocks b hl
  have hsmall := hi.inv.size_small hb
  obtain ⟨bs', hi', hbs'⟩ := hi.inv.reuse hb hf hn
  obtain ⟨htouch, hfree, hcut⟩ := splitBlock_cases l.heap.cells hn (by omega)
  have hother : ∀ c ∈ bs, c ≠ b → c + 16 ≤ b ∨ b + 16 + l.heap.cells.size b ≤ c := fun c hc hne => by
    rcases hi.inv.tiles.apart hc hb hne with h | h
    · exact .inl (by omega)
    · exact .inr h
  generalize splitBlock (l.heap.cells.setFree b 0) b (align8 size.toNat) = m' at *
  generalize align8 size.toNat = n at *
  rcases hcut with ⟨hle, _, hnb⟩ | ⟨hlt, _, hnb, _, hfc, hnc⟩
  · refine ⟨bs', fl, hi', hi.list.congr ?_, fun c hc => (hbs' c).mpr (.inl (hi.blocks c hc)), ?_⟩
    · intro c hc
      by_cases hne : c = b
      · rw [hne]; exact hnb
      · exact htouch.next (hother c (hi.blocks c hc) hne)
    · intro c hc hfc
      have hc := ((hbs' c).mp hc).resolve_right (fun h => by omega)
      by_cases hne : c = b
      · exact hne ▸ hl
      · exact hi.free c hc ((htouch.free (hother c hc hne)).symm.trans hfc)
  · obtain ⟨l₁, l₂, rfl⟩ := List.append_of_mem hl
    have hnd := List.nodup_middle.mp hi.list.nodup
    have hmem : ∀ c, c ∈ l₁ ++ b :: (b + 16 + n) :: l₂ ↔ c ∈ l₁ ++ b :: l₂ ∨ c = b + 16 + n := by
      intro c
      simp only [List.mem_append, List.mem_cons]
      tauto
    refine ⟨bs', l₁ ++ b :: (b + 16 + n) :: l₂, hi', hi.list.insert (by omega) hnb hnc ?_, ?_, ?_⟩
    · intro c hc
      have hne : c ≠ b := fun he => (List.nodup_cons.mp hnd).1 (he ▸ hc)
      refine htouch.next (hother c (hi.blocks c ?_) hne)
      simp only [List.mem_append, List.mem_cons] at hc ⊢
      tauto
    · intro c hc
      rcases (hmem c).mp hc with hc | hc
      · exact (hbs' c).mpr (.inl (hi.blocks c hc))
      · exact (hbs' c).mpr (.inr ⟨hc, hlt⟩)
    · intro c hc hfc'
      rw [hmem]
      rcases (hbs' c).mp hc with hc | ⟨hc, _⟩
      · by_cases hne : c = b
        · exact .inl (hne ▸ hl)
        · exact .inl (hi.free c hc ((htouch.free (hother c hc hne)).symm.trans hfc'))
      · exact .inr hc

theorem kmalloc_step (hi : l.ListInv bs fl) {size : UInt64} {l' : Ledger}
    (hw : Call.NoWrap l.heap (.kmalloc size)) (h : l.Step (.kmalloc size) l') :
    ∃ bs' fl', l'.ListInv bs' fl' := by
  obtain ⟨fuel, p, t, hk, rfl⟩ := h
  rcases kmalloc_cases hk with ⟨rfl, rfl, -⟩ | ⟨_, hc, rfl⟩ | ⟨b, hb, hf, rfl, rfl⟩
  · exact ⟨bs, fl, hi⟩
  · have htop := hi.inv.top
    have hbel := hi.inv.below
    have he : add64 l.heap.heapPtr blockHeader = l.heap.heapPtr + 16 := add64_eq (by unfold blockHeader; omega)
    rw [he, if_neg (by omega)]
    exact ⟨_, _, hi.fresh hw hc⟩
  · obtain ⟨hm, hfr, hs⟩ := hi.inv.found hf hb
    have hsmall := hi.inv.size_small hm
    have he : add64 b blockHeader = b + 16 := add64_eq (by unfold blockHeader; omega)
    rw [he, if_neg (by omega)]
    exact hi.reuse (hi.free b hm hfr) hfr hs

/-- A block that is not listed goes to the head. -/
theorem kfree_step (hi : l.ListInv bs fl) {ptr : Nat} {l' : Ledger} (hok : ¬ OnFreeList l.heap (ptr - 16))
    (h : l.Step (.kfree ptr) l') : l'.ListInv bs ((ptr - 16) :: fl) := by
  have hi' := hi.inv.kfree_step h
  obtain ⟨hp, rfl⟩ := h
  obtain ⟨b, hb, rfl, he⟩ := hi.inv.kfree_eq hp
  have hnl : b ∉ fl := fun hm => hok (hi.list.onWalk_iff.mpr hm)
  have hsmall := hi.inv.size_small hb
  have htouch : OnlyTouches l.heap.cells ((l.heap.cells.setFree b 1).setNext b l.heap.freeListHead) b (b+16) :=
    (setFree_touches _ _ le_rfl le_rfl).trans (setNext_touches _ _ le_rfl le_rfl)
  have hother : ∀ c ∈ bs, c ≠ b → c + 16 ≤ b ∨ b + 16 ≤ c := fun c hc hne => by
    rcases hi.inv.tiles.apart hc hb hne with h | h <;> omega
  rw [he] at hi' ⊢
  rw [Nat.add_sub_cancel]
  refine ⟨hi', ⟨rfl, show ¬ b = 0 by omega, ?_⟩, ?_, ?_⟩
  · dsimp only
    rw [next_setNext hi.inv.head_lt]
    exact hi.list.congr (fun c hc =>
      htouch.next (hother c (hi.blocks c hc) (fun he => hnl (he ▸ hc))))
  · intro c hc
    rcases List.mem_cons.mp hc with rfl | hc
    · exact hb
    · exact hi.blocks c hc
  · intro c hc hf
    by_cases hne : c = b
    · simp [hne]
    · exact List.mem_cons_of_mem _ (hi.free c hc ((htouch.free (hother c hc hne)).symm.trans hf))

end Ledger.ListInv

/-- A walk to `b` stays a walk to `b` when only the link out of `b` changes. -/
private theorem walk_relink {next next' : Nat → Nat} {P : Nat → Prop} {a b : Nat}
    (hP : ∀ x, P x → x ≠ 0 → P (next x)) (ha : P a) (hn : ∀ x, P x → x ≠ 0 → x ≠ b → next' x = next x)
    (h : OnWalk next (· = 0) a b) : OnWalk next' (· = 0) a b := by
  obtain ⟨hb, hr⟩ := h
  refine ⟨hb, ?_⟩
  induction hr using Relation.ReflTransGen.head_induction_on with
  | refl => exact .refl
  | @head x y hxy _ ih =>
    obtain ⟨hx, rfl⟩ := hxy
    by_cases he : x = b
    · rw [he]
    · exact .head ⟨hx, (hn x ha hx he).symm⟩ (ih (hP x ha hx))

/-- The condition is sharp: freeing a block that is still on the list leaves a ring. -/
theorem kfree_listed_ring {l l' : Ledger} {bs : List Nat} (hi : l.Inv bs) {ptr : Nat}
    (hon : OnFreeList l.heap (ptr - 16)) (h : l.Step (.kfree ptr) l') : ¬ FreeListOk l'.heap := by
  obtain ⟨hp, rfl⟩ := h
  obtain ⟨b, hb, rfl, he⟩ := hi.kfree_eq hp
  have hsmall := hi.size_small hb
  have htouch : OnlyTouches l.heap.cells ((l.heap.cells.setFree b 1).setNext b l.heap.freeListHead) b (b+16) :=
    (setFree_touches _ _ le_rfl le_rfl).trans (setNext_touches _ _ le_rfl le_rfl)
  rw [Nat.add_sub_cancel] at hon
  have hring : OnWalk ((l.heap.cells.setFree b 1).setNext b l.heap.freeListHead).next (· = 0)
      (((l.heap.cells.setFree b 1).setNext b l.heap.freeListHead).next b) b := by
    rw [next_setNext hi.head_lt]
    refine walk_relink (P := fun x => x = 0 ∨ x ∈ bs)
      (fun x hx hx0 => hi.next x (hx.resolve_left hx0)) hi.head (fun x hx hx0 hne => htouch.next ?_) hon
    rcases hi.tiles.apart (hx.resolve_left hx0) hb hne with h | h <;> omega
  rw [he]
  rintro ⟨fl, hl, _⟩
  exact not_linked_of_cycle hring ⟨fl, hl⟩

/-- As long as no freed block is still on the list and no size check wraps, the
free list stays a finite acyclic list through all free blocks, every search over
it returns, and the next `kfree` keeps it so exactly when it meets the condition. -/
theorem free_list_runs_ok (m : Cells) {calls : List Call} {l : Ledger}
    (hr : Run Ledger.OkStep ⟨kallocInit m, []⟩ calls l) :
    FreeListOk l.heap ∧ (∀ size, ∃ fuel b, findFreeBlock l.heap fuel size = some b) ∧
      ∀ ptr l', l.Step (.kfree ptr) l' → (FreeListOk l'.heap ↔ Call.Ok l.heap (.kfree ptr)) := by
  obtain ⟨bs, fl, hi⟩ := hr.invariant (fun l => ∃ bs fl, Ledger.ListInv l bs fl)
    (fun l c l' ⟨bs, fl, hi⟩ ⟨hok, h⟩ => by
      cases c with
      | kmalloc size => exact hi.kmalloc_step hok h
      | kfree ptr => exact ⟨_, _, hi.kfree_step hok h⟩)
    ⟨[], [], inv_init m, rfl, by simp, by simp⟩
  refine ⟨hi.ok, fun size => ⟨_, findFreeFrom_returns hi.list size⟩, fun ptr l' h => ⟨?_, ?_⟩⟩
  · exact fun hok hon => kfree_listed_ring hi.inv hon h hok
  · exact fun hok => (hi.kfree_step hok h).ok

/-- Two allocations, both given back, and a third one that takes a part of the second block. -/
theorem reuse_calls : (do
    let r ← kmalloc (kallocInit fun _ => 0#32) 1 8
    let r₂ ← kmalloc r.2 1 100
    let r₃ ← kmalloc (kfree (kfree r₂.2 r.1) r₂.1) 3 16
    return ([r.1, r₂.1, r₃.1], [r.2.heapPtr, r₂.2.heapPtr, r₂.2.freeListHead, r₃.2.freeListHead])) =
      some ([0x200010, 0x200028, 0x200028], [0x200018, 0x200090, 0, 0x200018]) := by decide +kernel

theorem free_list_runs_ok_reuse :
    ∃ l, Run Ledger.OkStep ⟨kallocInit (fun _ => 0#32), []⟩
      [.kmalloc 8, .kmalloc 100, .kfree 0x200010, .kfree 0x200028, .kmalloc 16] l ∧
      l.live = [(0x200028, 16)] ∧ FreeListOk l.heap ∧ l.heap.freeListHead = 0x200018 := by
  obtain ⟨⟨p₁, t₁⟩, h₁, hrest⟩ := Option.bind_eq_some_iff.mp reuse_calls
  obtain ⟨⟨p₂, t₂⟩, h₂, hrest⟩ := Option.bind_eq_some_iff.mp hrest
  obtain ⟨⟨p₃, t₃⟩, h₃, hrest⟩ := Option.bind_eq_some_iff.mp hrest
  obtain ⟨⟨rfl, rfl, rfl⟩, hptr₁, hptr₂, hhead₂, hhead₃⟩ : (p₁ = 0x200010 ∧ p₂ = 0x200028 ∧ p₃ = 0x200028) ∧
      t₁.heapPtr = 0x200018 ∧ t₂.heapPtr = 0x200090 ∧ t₂.freeListHead = 0 ∧ t₃.freeListHead = 0x200018 := by
    simpa using hrest
  have hnotA : ¬ OnFreeList t₂ 0x200000 := by
    rintro ⟨hb, hwalk⟩
    rw [hhead₂] at hwalk
    obtain he | ⟨c, hc, _⟩ := hwalk.cases_head
    · exact hb he.symm
    · exact hc.1 rfl
  have hfree : kfree t₂ 0x200010 =
      { t₂ with cells := (t₂.cells.setFree 0x200000 1).setNext 0x200000 0, freeListHead := 0x200000 } := by
    rw [kfree, if_neg (by decide), hhead₂, show sub64 0x200010 blockHeader = 0x200000 by decide +kernel]
  have hnotB : ¬ OnFreeList (kfree t₂ 0x200010) 0x200018 := by
    rintro ⟨-, hwalk⟩
    rw [hfree] at hwalk
    obtain he | ⟨c, ⟨-, hnext⟩, hwalk⟩ := hwalk.cases_head
    · exact absurd (show 0x200000 = 0x200018 from he) (by decide)
    rw [next_setNext (by decide)] at hnext
    subst hnext
    obtain he | ⟨c, hc, _⟩ := hwalk.cases_head
    · exact absurd he (by decide)
    · exact hc.1 rfl
  have hptr₃ : (kfree (kfree t₂ 0x200010) 0x200028).heapPtr = 0x200090 := by
    rw [kfree, if_neg (by decide), hfree]
    exact hptr₂
  have hr : Run Ledger.OkStep ⟨kallocInit (fun _ => 0#32), []⟩
      [.kmalloc 8, .kmalloc 100, .kfree 0x200010, .kfree 0x200028, .kmalloc 16] ⟨t₃, [(0x200028, 16)]⟩ :=
    .cons ⟨show 0x200000 + 16 + align8 8 < 2^64 by decide +kernel, 1, _, t₁, h₁, rfl⟩
      (.cons ⟨show t₁.heapPtr + 16 + align8 100 < 2^64 by rw [hptr₁]; decide +kernel, 1, _, t₂, h₂, rfl⟩
        (.cons ⟨hnotA, by simp, rfl⟩ (.cons ⟨hnotB, by simp, rfl⟩
          (.cons ⟨show (kfree (kfree t₂ 0x200010) 0x200028).heapPtr + 16 + align8 16 <
            2^64 by rw [hptr₃]; decide +kernel, 3, _, t₃, h₃, rfl⟩ (.nil _)))))
  exact ⟨_, hr, rfl, (free_list_runs_ok _ hr).1, hhead₃⟩

/-- A search on a block linked to itself that is too small goes round forever. -/
private theorem findFreeFrom_ring {m : Cells} {size p : Nat} (hp : p ≠ 0) (hn : m.next p = p)
    (hs : m.size p < size) (fuel : Nat) : findFreeFrom m size fuel p = none := by
  induction fuel with
  | zero => rfl
  | succ fuel ih =>
    rw [findFreeFrom, if_neg hp, if_neg (by omega), hn]
    exact ih

/-- Allocate, free, allocate and free the same eight bytes: the list is a ring
of one block, and no search for sixteen bytes returns. -/
theorem free_list_ring_after_reuse :
    ∃ calls l, Run Ledger.Step ⟨kallocInit (fun _ => 0#32), []⟩ calls l ∧
      ¬ FreeListOk l.heap ∧ ∀ fuel, findFreeBlock l.heap fuel 16 = none := by
  let c1 : Cells := ((Cells.setSize (fun _ => 0#32) 0x200000 8).setFree 0x200000 0).setNext 0x200000 0
  let s1 : State := ⟨0x200018, 0x500000, 0, c1⟩
  let c2 : Cells := (c1.setFree 0x200000 1).setNext 0x200000 0
  let c3 : Cells := c2.setFree 0x200000 0
  let c4 : Cells := (c3.setFree 0x200000 1).setNext 0x200000 0x200000
  have h1 : kmalloc (kallocInit (fun _ => 0#32)) 1 8 = some (0x200010, s1) := by with_unfolding_all rfl
  have h2 : kfree s1 0x200010 = ⟨0x200018, 0x500000, 0x200000, c2⟩ := by with_unfolding_all rfl
  have h3 : kmalloc ⟨0x200018, 0x500000, 0x200000, c2⟩ 1 8 =
      some (0x200010, ⟨0x200018, 0x500000, 0x200000, c3⟩) := by with_unfolding_all rfl
  have h4 : kfree ⟨0x200018, 0x500000, 0x200000, c3⟩ 0x200010 =
      ⟨0x200018, 0x500000, 0x200000, c4⟩ := by with_unfolding_all rfl
  have hn : c4.next 0x200000 = 0x200000 := by decide +kernel
  have hs : c4.size 0x200000 < 16 := by decide +kernel
  refine ⟨[.kmalloc 8, .kfree 0x200010, .kmalloc 8, .kfree 0x200010],
    ⟨⟨0x200018, 0x500000, 0x200000, c4⟩, []⟩,
    .cons ⟨1, _, _, h1, rfl⟩ (.cons ⟨by simp, rfl⟩ (.cons ⟨1, _, _, h2 ▸ h3, rfl⟩
      (.cons ⟨by simp, by rw [h4]; rfl⟩ (.nil _)))), ?_, findFreeFrom_ring (by decide) hn hs⟩
  have hring : OnWalk c4.next (· = 0) (c4.next 0x200000) 0x200000 := ⟨by decide, hn.symm ▸ .refl⟩
  rintro ⟨fl, hl, _⟩
  exact not_linked_of_cycle hring ⟨fl, hl⟩

end GeckoOS.Mem.Kmalloc
