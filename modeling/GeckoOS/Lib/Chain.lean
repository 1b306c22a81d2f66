import Mathlib.Combinatorics.Pigeonhole
import Mathlib.Data.List.GetD
import Mathlib.Data.List.Nodup
import Mathlib.Logic.Function.Iterate
import Mathlib.Logic.Relation

/-! Singly linked chains over an arbitrary successor map: the walk from a start
until a stopping value. Any finite chain is acyclic. -/
namespace GeckoOS.Lib
variable {α : Type*}

/-- Following `next` from `a` visits exactly `l`, in order, and then stops. -/
def Linked (next : α → α) (stop : α → Prop) : α → List α → Prop
  | a, [] => stop a
  | a, x :: xs => a = x ∧ ¬ stop x ∧ Linked next stop (next x) xs

/-- `b` is visited by the walk from `a`. -/
def OnWalk (next : α → α) (stop : α → Prop) (a b : α) : Prop :=
  ¬ stop b ∧ Relation.ReflTransGen (fun x y => ¬ stop x ∧ y = next x) a b

namespace Linked
variable {next next' : α → α} {stop : α → Prop} {a b c : α} {l l' l₁ l₂ : List α}

theorem unique (h : Linked next stop a l) (h' : Linked next stop a l') : l = l' := by
  induction l generalizing a l' with
  | nil =>
    cases l' with
    | nil => rfl
    | cons y l' => obtain ⟨rfl, hn, _⟩ := h'; exact absurd h hn
  | cons x l ih =>
    obtain ⟨rfl, hn, h⟩ := h
    cases l' with
    | nil => exact absurd h' hn
    | cons y l' =>
      obtain ⟨rfl, _, h'⟩ := h'
      rw [ih h h']

theorem suffix (h : Linked next stop a (l₁ ++ b :: l₂)) : Linked next stop b (b :: l₂) := by
  induction l₁ generalizing a with
  | nil => obtain ⟨rfl, h⟩ := h; exact ⟨rfl, h⟩
  | cons x l₁ ih => exact ih h.2.2

/-- A repeated element would give one start two chains of different length. -/
theorem nodup (h : Linked next stop a l) : l.Nodup := by
  induction l generalizing a with
  | nil => exact .nil
  | cons x l ih =>
    refine List.nodup_cons.mpr ⟨fun hx => ?_, ih h.2.2⟩
    obtain ⟨l₁, l₂, rfl⟩ := List.append_of_mem hx
    have htail : Linked next stop a ((x :: l₁) ++ x :: l₂) := h
    have hhead : Linked next stop x (x :: (l₁ ++ x :: l₂)) := ⟨rfl, h.2⟩
    have hlen := congrArg List.length (hhead.unique htail.suffix)
    simp at hlen
    omega

theorem not_stop (h : Linked next stop a l) (hx : b ∈ l) : ¬ stop b := by
  obtain ⟨l₁, l₂, rfl⟩ := List.append_of_mem hx
  exact (suffix h).2.1

/-- The walk goes on inside the list or stops. -/
theorem next_mem (h : Linked next stop a l) (hb : b ∈ l) : next b ∈ l ∨ stop (next b) := by
  obtain ⟨l₁, l₂, rfl⟩ := List.append_of_mem hb
  obtain ⟨-, -, ht⟩ := h.suffix
  cases l₂ with
  | nil => exact .inr ht
  | cons y l₂ => exact .inl (by simp [ht.1])

theorem congr (h : Linked next stop a l) (hn : ∀ x ∈ l, next' x = next x) : Linked next' stop a l := by
  induction l generalizing a with
  | nil => exact h
  | cons x l ih =>
    obtain ⟨rfl, hs, h⟩ := h
    exact ⟨rfl, hs, hn a (by simp) ▸ ih h (fun y hy => hn y (by simp [hy]))⟩

/-- Linking a new element in behind `b`. -/
theorem insert (h : Linked next stop a (l₁ ++ b :: l₂)) (hc : ¬ stop c) (hb' : next' b = c)
    (hc' : next' c = next b) (hn : ∀ x ∈ l₁ ++ l₂, next' x = next x) :
    Linked next' stop a (l₁ ++ b :: c :: l₂) := by
  induction l₁ generalizing a with
  | nil =>
    obtain ⟨rfl, hs, h⟩ := h
    exact ⟨rfl, hs, hb'.symm ▸ ⟨rfl, hc, hc'.symm ▸ h.congr (fun x hx => hn x (by simpa using hx))⟩⟩
  | cons x l₁ ih =>
    obtain ⟨rfl, hs, h⟩ := h
    exact ⟨rfl, hs, hn a (by simp) ▸ ih h (fun y hy => hn y (by simp_all))⟩

/-- With other stopping values, none of which is visited. -/
theorem of_stop {stop' : α → Prop} (h : Linked next stop a l) (hstop : ∀ x, stop x → stop' x)
    (hgo : ∀ x ∈ l, ¬ stop' x) : Linked next stop' a l := by
  induction l generalizing a with
  | nil => exact hstop a h
  | cons x l ih =>
    obtain ⟨rfl, -, h⟩ := h
    exact ⟨rfl, hgo a (by simp), ih h fun y hy => hgo y (by simp [hy])⟩

theorem onWalk_iff (h : Linked next stop a l) : OnWalk next stop a b ↔ b ∈ l := by
  constructor
  · rintro ⟨hs, hr⟩
    induction hr using Relation.ReflTransGen.head_induction_on generalizing l with
    | refl =>
      cases l with
      | nil => exact absurd h hs
      | cons x l => rw [h.1]; simp
    | head hxy _ ih =>
      obtain ⟨hx, rfl⟩ := hxy
      cases l with
      | nil => exact absurd h hx
      | cons y l =>
        obtain ⟨rfl, _, h⟩ := h
        exact List.mem_cons_of_mem _ (ih h)
  · intro hb
    refine ⟨h.not_stop hb, ?_⟩
    induction l generalizing a with
    | nil => cases hb
    | cons x l ih =>
      obtain ⟨rfl, hs, h⟩ := h
      rcases List.mem_cons.mp hb with rfl | hb
      · exact .refl
      · exact .head ⟨hs, rfl⟩ (ih h hb)

end Linked

/-- Following `next` from `a` visits `l` and then comes to `b`, whether it stops there or not. -/
def Path (next : α → α) : α → List α → α → Prop
  | a, [], b => a = b
  | a, x :: xs, b => a = x ∧ Path next (next x) xs b

theorem Linked.path {next : α → α} {stop : α → Prop} {a : α} {l : List α} (h : Linked next stop a l) :
    ∃ b, stop b ∧ Path next a l b := by
  induction l generalizing a with
  | nil => exact ⟨a, h, rfl⟩
  | cons x l ih =>
    obtain ⟨b, hb, hp⟩ := ih h.2.2
    exact ⟨b, hb, h.1, hp⟩

theorem Path.congr {next next' : α → α} {a b : α} {l : List α} (h : Path next a l b)
    (hn : ∀ x ∈ l, next' x = next x) :
    Path next' a l b := by
  induction l generalizing a with
  | nil => exact h
  | cons x l ih => exact ⟨h.1, hn x (by simp) ▸ ih h.2 fun y hy => hn y (by simp [hy])⟩

namespace OnWalk
variable {next next' : α → α} {stop : α → Prop} {a b : α} {S : Set α}

theorem refl (h : ¬ stop a) : OnWalk next stop a a := ⟨h, .refl⟩

theorem head (h : OnWalk next stop (next a) b) (ha : ¬ stop a) : OnWalk next stop a b :=
  ⟨h.1, .head ⟨ha, rfl⟩ h.2⟩

/-- A walk starts in front of its end. -/
theorem not_stop_start (h : OnWalk next stop a b) : ¬ stop a := by
  obtain ⟨hb, hr⟩ := h
  cases hr using Relation.ReflTransGen.head_induction_on with
  | refl => exact hb
  | head hxy _ => exact hxy.1

/-- A walk does not leave a set that the successor map does not leave. -/
theorem mem_of_closed (h : OnWalk next stop a b) (hS : ∀ x ∈ S, ¬ stop (next x) → next x ∈ S)
    (ha : a ∈ S) : b ∈ S := by
  obtain ⟨hb, hr⟩ := h
  induction hr with
  | refl => exact ha
  | tail _ hxy ih =>
    obtain ⟨hx, rfl⟩ := hxy
    exact hS _ (ih hx) hb

/-- A successor map that was changed inside such a set, or to stop, leads nowhere else. -/
theorem of_changed (h : OnWalk next' stop a b) (hS : ∀ x ∈ S, ¬ stop (next' x) → next' x ∈ S)
    (hsame : ∀ x ∉ S, next' x = next x ∨ stop (next' x)) : OnWalk next stop a b ∨ b ∈ S := by
  obtain ⟨hb, hr⟩ := h
  induction hr with
  | refl => exact .inl (.refl hb)
  | @tail x y _ hxy ih =>
    obtain ⟨hx, rfl⟩ := hxy
    by_cases hxS : x ∈ S
    · exact .inr (hS x hxS hb)
    · obtain hw | hxS' := ih hx
      · have hnext : next' x = next x := (hsame x hxS).resolve_right hb
        rw [hnext] at hb ⊢
        exact .inl ⟨hb, hw.2.tail ⟨hx, rfl⟩⟩
      · exact absurd hxS' hxS

/-- A successor map that was only changed to stop leads nowhere else. -/
theorem of_cut (h : OnWalk next' stop a b) (hsame : ∀ x, next' x = next x ∨ stop (next' x)) :
    OnWalk next stop a b := by
  have hno : ∀ x ∈ (∅ : Set α), ¬ stop (next' x) → next' x ∈ (∅ : Set α) := fun _ hx => hx.elim
  exact (h.of_changed hno fun x _ => hsame x).resolve_right fun hb => hb.elim

/-- Cutting the walk behind its start loses nothing but the start. -/
theorem cut [DecidableEq α] (h : OnWalk next stop (next a) b) (s : α) :
    b = a ∨ OnWalk (Function.update next a s) stop (next a) b := by
  obtain ⟨hb, hr⟩ := h
  induction hr with
  | refl => exact .inr (.refl hb)
  | @tail x y _ hxy ih =>
    obtain ⟨hx, rfl⟩ := hxy
    by_cases hxa : x = a
    · subst hxa
      exact .inr (.refl hb)
    · have hw := (ih hx).resolve_left hxa
      refine .inr ⟨hb, hw.2.tail ⟨hx, ?_⟩⟩
      rw [Function.update_of_ne hxa]

/-- A walk is its start and the walk from the next element on. -/
theorem iff_head (ha : ¬ stop a) : OnWalk next stop a b ↔ b = a ∨ OnWalk next stop (next a) b := by
  constructor
  · rintro ⟨hb, hr⟩
    cases hr using Relation.ReflTransGen.head_induction_on with
    | refl => exact .inl rfl
    | head hxy hr =>
      obtain ⟨-, rfl⟩ := hxy
      exact .inr ⟨hb, hr⟩
  · rintro (rfl | h)
    · exact .refl ha
    · exact h.head ha

end OnWalk

/-- The walk from an element comes to a stopping value or to a marked element. -/
inductive Ends (next : α → α) (stop mark : α → Prop) : α → Prop
  | stop {a : α} (h : stop a) : Ends next stop mark a
  | mark {a : α} (hs : ¬ stop a) (h : mark a) : Ends next stop mark a
  | step {a : α} (hs : ¬ stop a) (h : Ends next stop mark (next a)) : Ends next stop mark a

theorem ends_iff {next : α → α} {stop mark : α → Prop} {a : α} :
    Ends next stop mark a ↔ (∃ l, Linked next stop a l) ∨ ∃ x, OnWalk next stop a x ∧ mark x := by
  constructor
  · intro h
    induction h with
    | stop hs => exact .inl ⟨[], hs⟩
    | mark hs hm => exact .inr ⟨_, .refl hs, hm⟩
    | step hs _ ih =>
      rcases ih with ⟨l, hl⟩ | ⟨x, hx, hm⟩
      · exact .inl ⟨_ :: l, rfl, hs, hl⟩
      · exact .inr ⟨x, hx.head hs, hm⟩
  · rintro (⟨l, hl⟩ | ⟨x, ⟨hx, hr⟩, hm⟩)
    · induction l generalizing a with
      | nil => exact .stop hl
      | cons y l ih =>
        obtain ⟨rfl, hs, hl⟩ := hl
        exact .step hs (ih hl)
    · induction hr using Relation.ReflTransGen.head_induction_on with
      | refl => exact .mark hx hm
      | head hxy _ ih =>
        obtain ⟨hs, rfl⟩ := hxy
        exact .step hs ih

namespace Ends
variable {next : α → α} {stop mark : α → Prop} {a : α}

/-- A set that the walk does not leave, with nothing in it to end the walk. -/
theorem notMem_of_closed {S : Set α} (h : Ends next stop mark a)
    (hS : ∀ x ∈ S, ¬ stop x ∧ ¬ mark x ∧ next x ∈ S) : a ∉ S := by
  induction h with
  | stop hs => exact fun ha => (hS _ ha).1 hs
  | mark _ hm => exact fun ha => (hS _ ha).2.1 hm
  | step _ _ ih => exact fun ha => ih (hS _ ha).2.2

/-- Where the walk can only go through finitely many elements, it ends before it has come to
more of them than there are. -/
theorem exists_iterate (h : Ends next stop mark a) (F : Finset α) (hF : ∀ x, ¬ stop x → x ∈ F) :
    ∃ k ≤ F.card, stop (next^[k] a) ∨ mark (next^[k] a) := by
  by_contra hno
  have hgo : ∀ k ≤ F.card, ¬ stop (next^[k] a) ∧ ¬ mark (next^[k] a) := by
    intro k hk
    refine ⟨fun hs => hno ⟨k, hk, .inl hs⟩, fun hm => hno ⟨k, hk, .inr hm⟩⟩
  have hmaps : ∀ k ∈ Finset.range (F.card + 1), next^[k] a ∈ F :=
    fun k hk => hF _ (hgo k (Nat.lt_succ_iff.mp (Finset.mem_range.mp hk))).1
  obtain ⟨i, hi, j, hj, hne, heq⟩ :=
    Finset.exists_ne_map_eq_of_card_lt_of_maps_to (by rw [Finset.card_range]; omega) hmaps
  -- the elements in front of the repeated one are closed
  have hloop : ∀ i j, i < j → j ≤ F.card → next^[i] a = next^[j] a → False := by
    intro i j hij hj heq
    refine h.notMem_of_closed (S := {x | ∃ k < j, x = next^[k] a}) ?_ ⟨0, by omega, rfl⟩
    rintro x ⟨k, hk, rfl⟩
    refine ⟨(hgo k (by omega)).1, (hgo k (by omega)).2, ?_⟩
    rw [← Function.iterate_succ_apply' next]
    by_cases hkj : k + 1 = j
    · exact ⟨i, hij, by rw [heq, ← hkj]⟩
    · exact ⟨k + 1, by omega, rfl⟩
  rw [Finset.mem_range] at hi hj
  rcases Nat.lt_or_gt_of_ne hne with hlt | hlt
  · exact hloop i j hlt (by omega) heq
  · exact hloop j i hlt (by omega) heq.symm

end Ends

section relink
variable [DecidableEq α] {next : α → α} {last : α} {l : List α} {x : α}

/-- The successor map with the elements of `l` linked in their order, the final one to `last`. -/
def relink (next : α → α) (last : α) (l : List α) (x : α) : α :=
  if x ∈ l then l.getD (l.idxOf x + 1) last else next x

theorem relink_of_notMem (hx : x ∉ l) : relink next last l x = next x := if_neg hx

theorem relink_nil : relink next last [] = next := by
  funext x
  exact relink_of_notMem List.not_mem_nil

/-- A new value is an element of the list or `last`. -/
theorem relink_mem (hx : x ∈ l) : relink next last l x ∈ l ∨ relink next last l x = last := by
  rw [relink, if_pos hx]
  by_cases h : l.idxOf x + 1 < l.length
  · rw [List.getD_eq_getElem _ _ h]
    exact .inl (List.getElem_mem h)
  · exact .inr (List.getD_eq_default _ _ (by omega))

theorem relink_singleton (a : α) : relink next last [a] = Function.update next a last := by
  funext x
  by_cases hx : x = a
  · subst hx
    simp [relink]
  · simp [relink, hx]

/-- Linking one more element in at the end. -/
theorem relink_snoc (hl : l.Nodup) (hne : l ≠ []) {c : α} (hc : c ∉ l) :
    relink next last (l ++ [c]) =
      Function.update (Function.update (relink next last l) c last) (l.getLast hne) c := by
  funext x
  have hlast : l.idxOf (l.getLast hne) = l.length - 1 := by
    rw [List.getLast_eq_getElem]
    exact hl.idxOf_getElem _ _
  by_cases hx : x ∈ l
  · have hlt := List.idxOf_lt_length_of_mem hx
    rw [relink, if_pos (List.mem_append_left _ hx), List.idxOf_append_of_mem hx]
    by_cases hxl : x = l.getLast hne
    · subst hxl
      rw [Function.update_self, hlast, List.getD_append_right _ _ _ _ (by omega)]
      simp [show l.length - 1 + 1 - l.length = 0 by omega]
    · have hne' : l.idxOf x ≠ l.length - 1 := by
        intro he
        apply hxl
        rw [List.getLast_eq_getElem, ← List.getElem_idxOf hlt]
        simp only [he]
      have hxc : x ≠ c := fun h => hc (h ▸ hx)
      rw [Function.update_of_ne hxl, Function.update_of_ne hxc, relink, if_pos hx,
        List.getD_append _ _ _ _ (by omega)]
  · have hxl : x ≠ l.getLast hne := fun h => hx (h ▸ List.getLast_mem hne)
    rw [Function.update_of_ne hxl]
    by_cases hxc : x = c
    · subst hxc
      rw [Function.update_self, relink, if_pos (by simp), List.idxOf_append_of_notMem hc]
      exact List.getD_eq_default _ _ (by simp)
    · rw [Function.update_of_ne hxc, relink_of_notMem hx, relink_of_notMem (by simp [hx, hxc])]

/-- The relinked elements are a chain. -/
theorem linked_relink {stop : α → Prop} (hl : l.Nodup) (hs : ∀ y ∈ l, ¬ stop y) (hlast : stop last) :
    ∀ k ≤ l.length, Linked (relink next last l) stop (l.getD k last) (l.drop k) := by
  intro k hk
  induction hn : l.length - k generalizing k with
  | zero =>
    rw [List.getD_eq_default _ _ (by omega), List.drop_eq_nil_of_le (by omega)]
    exact hlast
  | succ n ih =>
    have hlt : k < l.length := by omega
    rw [List.getD_eq_getElem _ _ hlt, List.drop_eq_getElem_cons hlt]
    refine ⟨rfl, hs _ (List.getElem_mem hlt), ?_⟩
    rw [relink, if_pos (List.getElem_mem hlt), hl.idxOf_getElem]
    exact ih (k+1) (by omega) (by omega)

end relink

/-- A walk that comes back to its start has no end. -/
theorem not_linked_of_cycle {next : α → α} {stop : α → Prop} {a : α}
    (hr : OnWalk next stop (next a) a) : ¬ ∃ l, Linked next stop a l := by
  have hs := hr.1
  rintro ⟨l, h⟩
  cases l with
  | nil => exact hs h
  | cons x l =>
    obtain ⟨rfl, _, ht⟩ := h
    have hnd : (a :: l).Nodup := (show Linked next stop a (a :: l) from ⟨rfl, hs, ht⟩).nodup
    exact (List.nodup_cons.mp hnd).1 (ht.onWalk_iff.mp hr)

end GeckoOS.Lib
