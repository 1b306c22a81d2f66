import Mathlib.Data.List.Basic
import Mathlib.Tactic.Common

/-! The last element of a list with a property: what a loop keeps that overwrites its
result at each match. -/
namespace GeckoOS.Lib
variable {α β : Type*} {p q : α → Prop} [DecidablePred p] [DecidablePred q] {a : α} {l l' : List α}

def findLast (p : α → Prop) [DecidablePred p] (l : List α) : Option α := l.reverse.find? fun a => p a

@[simp] theorem findLast_nil : findLast p [] = none := rfl

theorem findLast_append (l l' : List α) : findLast p (l ++ l') = (findLast p l').or (findLast p l) := by
  rw [findLast, List.reverse_append, List.find?_append]
  rfl

theorem findLast_cons (a : α) (l : List α) :
    findLast p (a :: l) = (findLast p l).or (if p a then some a else none) := by
  have hone : findLast p [a] = if p a then some a else none := by
    by_cases h : p a <;> simp [findLast, h]
  rw [← hone]
  exact findLast_append [a] l

theorem findLast_eq_none_iff : findLast p l = none ↔ ∀ a ∈ l, ¬ p a := by simp [findLast]

theorem findLast_some (h : findLast p l = some a) : a ∈ l ∧ p a :=
  have hfound := List.find?_some h
  ⟨List.mem_reverse.mp (List.mem_of_find?_eq_some h), of_decide_eq_true hfound⟩

theorem findLast_congr (h : ∀ a ∈ l, p a ↔ q a) : findLast p l = findLast q l := by
  induction l with
  | nil => rfl
  | cons a l ih =>
    rw [List.forall_mem_cons] at h
    rw [findLast_cons, findLast_cons, ih h.2]
    simp only [h.1]

/-- The last one is the last one of a part that holds it. -/
theorem findLast_of_mem_prefix (hpre : l' <+: l) (hnodup : l.Nodup) (h : findLast p l = some a)
    (ha : a ∈ l') :
    findLast p l' = some a := by
  obtain ⟨rest, rfl⟩ := hpre
  rw [findLast_append] at h
  cases hrest : findLast p rest with
  | none =>
    rw [hrest, Option.none_or] at h
    exact h
  | some b =>
    rw [hrest, Option.some_or] at h
    obtain rfl := Option.some.inj h
    exact absurd rfl ((List.nodup_append.mp hnodup).2.2 b ha b (findLast_some hrest).1)

/-- A stronger property that the last one has. -/
theorem findLast_strengthen (hpq : ∀ a, q a → p a) (h : findLast p l = some a) (ha : q a) :
    findLast q l = some a := by
  induction l with
  | nil => cases h
  | cons b l ih =>
    rw [findLast_cons] at h ⊢
    cases hrest : findLast p l with
    | some c =>
      rw [hrest, Option.some_or] at h
      rw [ih (hrest.trans h), Option.some_or]
    | none =>
      have hnone : findLast q l = none :=
        findLast_eq_none_iff.mpr fun c hc hq => findLast_eq_none_iff.mp hrest c hc (hpq c hq)
      rw [hrest, Option.none_or] at h
      obtain ⟨-, rfl⟩ := Option.ite_some_none_eq_some.mp h
      rw [hnone, Option.none_or, if_pos ha]

/-- The loop. -/
theorem foldl_findLast (f : α → β) (b : β) (l : List α) :
    l.foldl (fun b a => if p a then f a else b) b = (findLast p l).elim b f := by
  induction l generalizing b with
  | nil => rfl
  | cons a l ih =>
    rw [List.foldl_cons, ih, findLast_cons]
    cases findLast p l with
    | some c => rfl
    | none => by_cases h : p a <;> simp [h]

end GeckoOS.Lib
