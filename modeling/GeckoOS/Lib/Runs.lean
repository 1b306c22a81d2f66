import Mathlib.Logic.Basic

/-! Labelled runs of a step relation, and the rules used on them: an invariant
is carried along a run, a condition on the labels moves into the steps, and a
queue that every step keeps in order is kept in order by the run. -/
namespace GeckoOS.Lib
variable {σ ι α : Type*}

/-- `Run step s is t`: from `s` the labels `is` can be taken in order and end in `t`. -/
inductive Run (step : σ → ι → σ → Prop) : σ → List ι → σ → Prop
  | nil (s : σ) : Run step s [] s
  | cons {s t u : σ} {i : ι} {is : List ι} (h : step s i t) (hr : Run step t is u) :
      Run step s (i :: is) u

namespace Run
variable {step : σ → ι → σ → Prop} {s t : σ} {is : List ι}

/-- A property kept by every step holds at the end of every run. -/
theorem invariant (hr : Run step s is t) (Inv : σ → Prop)
    (hstep : ∀ s i t, Inv s → step s i t → Inv t) (hs : Inv s) : Inv t := by
  induction hr with
  | nil => exact hs
  | cons h _ ih => exact ih (hstep _ _ _ hs h)

/-- The same of a property that also speaks of the labels taken so far. -/
theorem history (hr : Run step s is t) {I : List ι → σ → Prop} {done : List ι}
    (hstep : ∀ {done s i t}, I done s → step s i t → I (done ++ [i]) t) (hs : I done s) : I (done ++ is) t := by
  induction hr generalizing done with
  | nil =>
    rw [List.append_nil]
    exact hs
  | @cons s t u i is h _ ih =>
    have hrest := ih (hstep hs h)
    rw [List.append_assoc] at hrest
    exact hrest

theorem append {u : σ} {is' : List ι} (hr : Run step s is t) (hr' : Run step t is' u) :
    Run step s (is ++ is') u := by
  induction hr with
  | nil => exact hr'
  | cons h _ ih => exact .cons h (ih hr')

theorem split {u : σ} {is' : List ι} (hr : Run step s (is ++ is') u) :
    ∃ t, Run step s is t ∧ Run step t is' u := by
  induction is generalizing s with
  | nil => exact ⟨s, .nil s, hr⟩
  | cons i is ih =>
    cases hr with
    | cons h hr =>
      obtain ⟨t, hfirst, hrest⟩ := ih hr
      exact ⟨t, .cons h hfirst, hrest⟩

/-- A run all of whose labels satisfy `P` is a run of the steps restricted to `P`. -/
theorem restrict {P : ι → Prop} (hr : Run step s is t) (hp : ∀ i ∈ is, P i) :
    Run (fun s i t => P i ∧ step s i t) s is t := by
  induction hr with
  | nil => exact .nil _
  | cons h _ ih => exact .cons ⟨hp _ (by simp), h⟩ (ih (fun i hi => hp i (by simp [hi])))

/-- If in every step what waits and what comes in is what goes out and what waits
then, the same holds of a whole run: nothing is lost, doubled or overtaken. -/
theorem queue {Queue : σ → List α → Prop} {into out : ι → Option α} {waiting : List α}
    (hstep : ∀ {s waiting i t}, Queue s waiting → step s i t →
      ∃ waiting', Queue t waiting' ∧ waiting ++ [i].filterMap into = [i].filterMap out ++ waiting')
    (hr : Run step s is t) (hs : Queue s waiting) :
    ∃ waiting', Queue t waiting' ∧ waiting ++ is.filterMap into = is.filterMap out ++ waiting' := by
  induction hr generalizing waiting with
  | nil s => exact ⟨waiting, hs, List.append_nil _⟩
  | @cons s t u i is h _ ih =>
    obtain ⟨mid, hmid, heq⟩ := hstep hs h
    obtain ⟨waiting', hend, heq'⟩ := ih hmid
    refine ⟨waiting', hend, ?_⟩
    have hcons (f : ι → Option α) : (i :: is).filterMap f = [i].filterMap f ++ is.filterMap f :=
      List.filterMap_append (l := [i])
    rw [hcons into, hcons out, ← List.append_assoc, heq, List.append_assoc, heq', List.append_assoc]

end Run
end GeckoOS.Lib
