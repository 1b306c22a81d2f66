import GeckoOS.Lib.Runs
import Mathlib.Logic.Function.Basic

/-! Machines that answer calls one after the other, and the refinement of a
machine with few details by one with many. -/
namespace GeckoOS.Lib
variable {ι ο σ τ : Type*}

/-- The answer to a call and the next state; `none` if nothing is said about the call. -/
abbrev Machine (ι ο σ : Type*) := σ → ι → Option (ο × σ)

namespace Machine

/-- The answers to a list of calls and the last state. -/
def run (m : Machine ι ο σ) : σ → List ι → Option (List ο × σ)
  | s, [] => some ([], s)
  | s, i :: is => (m s i).bind fun r => (run m r.2 is).map fun rs => (r.1 :: rs.1, rs.2)

/-- To every call in `P` that `spec` answers, `impl` gives the same answer, and the
states stay related. -/
def RefinedBy (spec : Machine ι ο σ) (impl : Machine ι ο τ) (P : ι → Prop) (R : σ → τ → Prop) : Prop :=
  ∀ ⦃s t i o s'⦄, P i → R s t → spec s i = some (o, s') → ∃ t', impl t i = some (o, t') ∧ R s' t'

variable {m : Machine ι ο σ} {spec : Machine ι ο σ} {impl : Machine ι ο τ} {P : ι → Prop} {R : σ → τ → Prop}
  {s s' : σ} {t : τ} {i : ι} {is : List ι} {o : ο} {os : List ο}

theorem run_cons_eq_some : m.run s (i :: is) = some (os, s') ↔
    ∃ o s₁ rest, m s i = some (o, s₁) ∧ m.run s₁ is = some (rest, s') ∧ os = o :: rest := by
  rw [run, Option.bind_eq_some_iff]
  constructor
  · rintro ⟨⟨o, s₁⟩, hstep, hrest⟩
    obtain ⟨⟨rest, s₂⟩, hrun, heq⟩ := Option.map_eq_some_iff.mp hrest
    obtain ⟨rfl, rfl⟩ := Prod.mk.inj heq
    exact ⟨o, s₁, rest, hstep, hrun, rfl⟩
  · rintro ⟨o, s₁, rest, hstep, hrun, rfl⟩
    exact ⟨(o, s₁), hstep, Option.map_eq_some_iff.mpr ⟨(rest, s'), hrun, rfl⟩⟩

/-- A run as one of a step relation. -/
theorem run_steps {step : σ → ι → σ → Prop}
    (hstep : ∀ s, ∀ i ∈ is, ∀ o ∈ os, ∀ s', m s i = some (o, s') → step s i s')
    (h : m.run s is = some (os, s')) : Run step s is s' := by
  induction is generalizing s os with
  | nil =>
    obtain ⟨rfl, rfl⟩ := Prod.mk.inj (Option.some.inj h)
    exact .nil s
  | cons i is ih =>
    obtain ⟨o, s₁, rest, hfirst, hrest, rfl⟩ := run_cons_eq_some.mp h
    exact .cons (hstep s i List.mem_cons_self o List.mem_cons_self s₁ hfirst)
      (ih (fun s j hj o ho => hstep s j (List.mem_cons_of_mem _ hj) o (List.mem_cons_of_mem _ ho)) hrest)

/-- The same of whole runs. -/
theorem RefinedBy.run (h : RefinedBy spec impl P R) (hP : ∀ i ∈ is, P i) (hR : R s t)
    (hrun : Machine.run spec s is = some (os, s')) : ∃ t', Machine.run impl t is = some (os, t') ∧ R s' t' := by
  induction is generalizing s t os with
  | nil =>
    obtain ⟨rfl, rfl⟩ := Prod.mk.inj (Option.some.inj hrun)
    exact ⟨t, rfl, hR⟩
  | cons i is ih =>
    obtain ⟨o, s₁, rest, hstep, hrest, rfl⟩ := run_cons_eq_some.mp hrun
    obtain ⟨hfirst, hothers⟩ := List.forall_mem_cons.mp hP
    obtain ⟨t₁, himpl, hR₁⟩ := h hfirst hR hstep
    obtain ⟨t', hrun', hR'⟩ := ih hothers hR₁ hrest
    exact ⟨t', run_cons_eq_some.mpr ⟨o, t₁, rest, himpl, hrun', rfl⟩, hR'⟩

/-- A machine that answers every call in an invariant state, and in one again, answers every run. -/
theorem run_total {I : σ → Prop} (hstep : ∀ s i, I s → ∃ o s', m s i = some (o, s') ∧ I s') (h : I s)
    (is : List ι) :
    ∃ os s', m.run s is = some (os, s') ∧ I s' := by
  induction is generalizing s with
  | nil => exact ⟨[], s, rfl, h⟩
  | cons i is ih =>
    obtain ⟨o, s₁, hs, h₁⟩ := hstep s i h
    obtain ⟨os, s', hrun, h'⟩ := ih h₁
    exact ⟨o :: os, s', run_cons_eq_some.mpr ⟨o, s₁, os, hs, hrun, rfl⟩, h'⟩

end Machine
end GeckoOS.Lib
