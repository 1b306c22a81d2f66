import GeckoOS.Lib.Programs

/-! Pre- and postconditions of programs that may fail: what holds of a result and of
the state behind it, and which errors there can be. -/
namespace GeckoOS.Lib
variable {ε σ α β : Type}

/-- From a state in `I` the program gives a result and a state in `J`, or an error in `E`. -/
def Contract (E : ε → Prop) (I : σ → Prop) (J : α → σ → Prop) (p : EStateM ε σ α) : Prop := ∀ s, I s →
  match p s with
  | .ok a s' => J a s'
  | .error e _ => E e

namespace Contract
variable {E : ε → Prop} {I I' : σ → Prop} {J J' : α → σ → Prop} {K : β → σ → Prop} {p q : EStateM ε σ α}
  {k : α → EStateM ε σ β}

protected theorem pure {a : α} (h : ∀ s, I s → J a s) : Contract E I J (pure a : EStateM ε σ α) := h

protected theorem throw {e : ε} (h : E e) : Contract E I J (throw e : EStateM ε σ α) := fun _ _ => h

protected theorem modify {f : σ → σ} {J : PUnit → σ → Prop} (h : ∀ s, I s → J ⟨⟩ (f s)) :
    Contract E I J (modify f : EStateM ε σ PUnit) := h

protected theorem bind (hp : Contract E I J p) (hk : ∀ a, Contract E (J a) K (k a)) :
    Contract E I K (p >>= k) := by
  intro s hs
  have hfirst := hp s hs
  cases h : p s with
  | ok a s' =>
    rw [h] at hfirst
    rw [bind_ok h]
    exact hk a s' hfirst
  | error e s' =>
    rw [h] at hfirst
    rw [bind_error h]
    exact hfirst

/-- The rest knows which state was read. -/
protected theorem get {f : σ → EStateM ε σ β} (h : ∀ s, I s → Contract E (fun s' => s' = s) K (f s)) :
    Contract E I K (do f (← get)) := by
  intro s hs
  rw [bind_ok (get_apply s)]
  exact h s hs s rfl

protected theorem ite {c : Prop} [Decidable c] (hp : c → Contract E I J p) (hq : ¬ c → Contract E I J q) :
    Contract E I J (if c then p else q) := by
  by_cases hc : c
  · rw [if_pos hc]
    exact hp hc
  · rw [if_neg hc]
    exact hq hc

theorem strengthen (h : Contract E I J p) (hI : ∀ s, I' s → I s) : Contract E I' J p :=
  fun s hs => h s (hI s hs)

end Contract

end GeckoOS.Lib
