import Mathlib.Data.List.Flatten
import Mathlib.Data.List.Nodup
import Mathlib.Tactic.Common

/-! Trees whose nodes know their first child and their next sibling, and the descent that
goes to the first child of a node, to its next sibling if it has none, and never back. -/
namespace GeckoOS.Lib

/-- A node with its children and the siblings behind it. -/
inductive Forest (α : Type*) where
  | nil
  | node (a : α) (children next : Forest α)

namespace Forest
variable {α β : Type*}

/-- All nodes, each in front of its children. -/
def items : Forest α → List α
  | nil => []
  | node a children next => a :: (children.items ++ next.items)

/-- The nodes that the descent meets. -/
def descent : Forest α → List α
  | nil => []
  | node a nil next => a :: next.descent
  | node a (node b children siblings) _ => a :: (node b children siblings).descent

/-- A forest and the ones below or behind its nodes. -/
inductive Has : Forest α → Forest α → Prop where
  | refl (f : Forest α) : Has f f
  | child {a : α} {children next f : Forest α} (h : Has children f) : Has (node a children next) f
  | sibling {a : α} {children next f : Forest α} (h : Has next f) : Has (node a children next) f

/-- Behind the nodes with children there is nothing that counts. -/
def EndsAtParents (weight : α → List β) (f : Forest α) : Prop :=
  ∀ a children next, f.Has (node a children next) → children ≠ nil → next.items.flatMap weight = []

variable {weight : α → List β} {f g : Forest α}

theorem descent_sublist (f : Forest α) : f.descent.Sublist f.items := by
  induction f with
  | nil => exact .slnil
  | node a children next ihc ihn =>
    cases children with
    | nil => exact ihn.cons_cons a
    | node b children siblings => exact (ihc.trans (List.sublist_append_left _ _)).cons_cons a

theorem Has.items_subset (h : f.Has g) : g.items ⊆ f.items := by
  induction h with
  | refl => exact List.Subset.refl _
  | child _ ih => exact fun a ha => List.mem_cons_of_mem _ (List.mem_append_left _ (ih ha))
  | sibling _ ih => exact fun a ha => List.mem_cons_of_mem _ (List.mem_append_right _ (ih ha))

/-- Where nothing counts there is nothing behind a node either. -/
theorem endsAtParents_of_nil (h : f.items.flatMap weight = []) : f.EndsAtParents weight := by
  intro a children next hhas _
  rw [List.flatMap_eq_nil_iff] at h ⊢
  exact fun b hb => h b (hhas.items_subset (List.mem_cons_of_mem _ (List.mem_append_right _ hb)))

theorem endsAtParents_leaf {a : α} {next : Forest α} :
    (node a nil next).EndsAtParents weight ↔ next.EndsAtParents weight := by
  constructor
  · exact fun h b children siblings hhas => h b children siblings hhas.sibling
  · intro h b children siblings hhas hne
    cases hhas with
    | refl => exact absurd rfl hne
    | child hhas => cases hhas
    | sibling hhas => exact h b children siblings hhas hne

theorem endsAtParents_parent {a : α} {children next : Forest α} (hne : children ≠ nil) :
    (node a children next).EndsAtParents weight ↔ next.items.flatMap weight = [] ∧
    children.EndsAtParents weight := by
  constructor
  · exact fun h => ⟨h a children next (.refl _) hne, fun b kids siblings hhas => h b kids siblings hhas.child⟩
  · rintro ⟨hnext, hchildren⟩ b kids siblings hhas hkids
    cases hhas with
    | refl => exact hnext
    | child hhas => exact hchildren b kids siblings hhas hkids
    | sibling hhas => exact endsAtParents_of_nil hnext b kids siblings hhas hkids

/-- The descent misses nothing that counts if and only if there is nothing of it behind a
node with children. -/
theorem descent_covers_iff (hnodup : (f.items.flatMap weight).Nodup) :
    (∀ b ∈ f.items.flatMap weight, b ∈ f.descent.flatMap weight) ↔ f.EndsAtParents weight := by
  induction f with
  | nil =>
    constructor
    · intro _ a children next hhas
      cases hhas
    · exact fun _ b hb => hb
  | node a children next ihc ihn =>
    rw [items, List.flatMap_cons, List.flatMap_append] at hnodup ⊢
    obtain ⟨-, hrest, hapart⟩ := List.nodup_append.mp hnodup
    obtain ⟨hnodupc, hnodupn, hsides⟩ := List.nodup_append.mp hrest
    cases children with
    | nil =>
      rw [endsAtParents_leaf, ← ihn hnodupn, descent, List.flatMap_cons]
      simp only [items, List.flatMap_nil, List.nil_append] at hapart ⊢
      constructor
      · intro h b hb
        rcases List.mem_append.mp (h b (List.mem_append_right _ hb)) with hfirst | hlater
        · exact absurd rfl (hapart b hfirst b hb)
        · exact hlater
      · intro h b hb
        rcases List.mem_append.mp hb with hfirst | hlater
        · exact List.mem_append_left _ hfirst
        · exact List.mem_append_right _ (h b hlater)
    | node a' kids siblings =>
      rw [endsAtParents_parent (by intro h; cases h), ← ihc hnodupc, descent, List.flatMap_cons]
      have hbelow : ∀ b ∈ (node a' kids siblings).descent.flatMap weight,
        b ∈ (node a' kids siblings).items.flatMap weight :=
        fun b hb => ((descent_sublist _).flatMap weight).subset hb
      generalize node a' kids siblings = children at *
      constructor
      · intro h
        refine ⟨List.eq_nil_iff_forall_not_mem.mpr fun b hb => ?_, fun b hb => ?_⟩
        · rcases List.mem_append.mp
            (h b (List.mem_append_right _ (List.mem_append_right _ hb))) with hfirst | hlater
          · exact hapart b hfirst b (List.mem_append_right _ hb) rfl
          · exact hsides b (hbelow b hlater) b hb rfl
        · rcases List.mem_append.mp
            (h b (List.mem_append_right _ (List.mem_append_left _ hb))) with hfirst | hlater
          · exact absurd rfl (hapart b hfirst b (List.mem_append_left _ hb))
          · exact hlater
      · rintro ⟨hnone, hall⟩ b hb
        rw [hnone, List.append_nil] at hb
        rcases List.mem_append.mp hb with hfirst | hlater
        · exact List.mem_append_left _ hfirst
        · exact List.mem_append_right _ (hall b hlater)

end Forest
end GeckoOS.Lib
