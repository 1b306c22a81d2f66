import Mathlib.Tactic.Common

/-! A fold that its function may stop: the shape of a loop with an early return. -/
namespace GeckoOS.Lib
variable {α β σ : Type*}

/-- Apply `f` along the list until it answers `true`. -/
def scan (f : σ → α → Bool × σ) : σ → List α → Bool × σ
  | s, [] => (false, s)
  | s, a :: l =>
    match f s a with
    | (true, s) => (true, s)
    | (false, s) => scan f s l

variable (f : σ → α → Bool × σ)

theorem scan_cons (s : σ) (a : α) (l : List α) :
    scan f s (a :: l) = if (f s a).1 then (true, (f s a).2) else scan f (f s a).2 l := by
  rw [scan]
  rcases f s a with ⟨_ | _, t⟩ <;> rfl

theorem scan_append (s : σ) (l l' : List α) :
    scan f s (l ++ l') = if (scan f s l).1 then scan f s l else scan f (scan f s l).2 l' := by
  induction l generalizing s with
  | nil => rfl
  | cons a l ih =>
    rw [List.cons_append, scan_cons, scan_cons]
    by_cases h : (f s a).1 = true
    · simp [h]
    · rw [if_neg h, if_neg h, ih]

/-- Nested loops that pass on an early return are one loop over all pairs. -/
theorem scan_scan (g : β → List α) (s : σ) (l : List β) :
    scan (fun s b => scan f s (g b)) s l = scan f s (l.flatMap g) := by
  induction l generalizing s with
  | nil => rfl
  | cons b l ih =>
    rw [List.flatMap_cons, scan_append, scan_cons, ih]
    by_cases h : (scan f s (g b)).1 = true
    · rw [if_pos h, if_pos h, ← h]
    · rw [if_neg h, if_neg h]

theorem scan_map (g : β → α) (s : σ) (l : List β) :
    scan (fun s b => f s (g b)) s l = scan f s (l.map g) := by
  induction l generalizing s with
  | nil => rfl
  | cons b l ih => rw [List.map_cons, scan_cons, scan_cons, ih]

theorem scan_congr {f f' : σ → α → Bool × σ} (s : σ) (l : List α) (h : ∀ s, ∀ a ∈ l, f s a = f' s a) :
    scan f s l = scan f' s l := by
  induction l generalizing s with
  | nil => rfl
  | cons a l ih =>
    rw [scan_cons, scan_cons, h s a (by simp), ih _ (fun s b hb => h s b (by simp [hb]))]

/-- If stopping depends on the elements only, the loop stops if one of them makes it stop. -/
theorem scan_fst {f : σ → α → Bool × σ} {p : α → Bool} (l : List α)
    (h : ∀ s, ∀ a ∈ l, (f s a).1 = p a) (s : σ) :
    (scan f s l).1 = l.any p := by
  induction l generalizing s with
  | nil => rfl
  | cons a l ih =>
    have hrest := ih (fun s b hb => h s b (by simp [hb])) (f s a).2
    rw [scan_cons, List.any_cons, ← h s a (by simp), ← hrest]
    cases (f s a).1 <;> rfl

end GeckoOS.Lib
