import Mathlib.Tactic.Common

/-! Programs that pass a state along and may stop early: how they compose, and
what holds of the state in which they end. -/
namespace GeckoOS.Lib
variable {ε σ α β : Type}

instance decidableEqResult [DecidableEq ε] [DecidableEq σ] [DecidableEq α] : DecidableEq (EStateM.Result ε σ α)
  | .ok a s, .ok a' s' => decidable_of_iff (a = a' ∧ s = s') (by simp)
  | .error e s, .error e' s' => decidable_of_iff (e = e' ∧ s = s') (by simp)
  | .ok .., .error .. => isFalse nofun
  | .error .., .ok .. => isFalse nofun

/-- The state in which a program ends, by a result or by a stop. -/
def final : EStateM.Result ε σ α → σ
  | .ok _ s => s
  | .error _ s => s

@[simp] theorem final_ok (a : α) (s : σ) : final (.ok a s : EStateM.Result ε σ α) = s := rfl
@[simp] theorem final_error (e : ε) (s : σ) : final (.error e s : EStateM.Result ε σ α) = s := rfl

@[simp] theorem pure_apply (a : α) (s : σ) : (pure a : EStateM ε σ α) s = .ok a s := rfl
@[simp] theorem throw_apply (e : ε) (s : σ) : (throw e : EStateM ε σ α) s = .error e s := rfl
@[simp] theorem modify_apply (f : σ → σ) (s : σ) : (modify f : EStateM ε σ PUnit) s = .ok ⟨⟩ (f s) := rfl
@[simp] theorem get_apply (s : σ) : (get : EStateM ε σ σ) s = .ok s s := rfl

variable {p : EStateM ε σ α} {k : α → EStateM ε σ β} {s s' s'' : σ} {a : α} {b : β} {e : ε}

theorem bind_ok (h : p s = .ok a s') : (p >>= k) s = k a s' := by
  change EStateM.bind p k s = _
  rw [EStateM.bind, h]

theorem bind_error (h : p s = .error e s') : (p >>= k) s = .error e s' := by
  change EStateM.bind p k s = _
  rw [EStateM.bind, h]

/-- A sequence gives a result only if its first part does. -/
theorem bind_eq_ok (h : (p >>= k) s = .ok b s'') : ∃ a s', p s = .ok a s' ∧ k a s' = .ok b s'' := by
  cases hp : p s with
  | ok a s' => exact ⟨a, s', rfl, by rwa [bind_ok hp] at h⟩
  | error e s' =>
    rw [bind_error hp] at h
    cases h

/-- The same for programs whose states are passed by hand. -/
theorem except_bind_eq_ok {x : Except ε α} {k : α → Except ε β} {b : β} : (x >>= k) = .ok b ↔
    ∃ a, x = .ok a ∧ k a = .ok b := by
  cases x with
  | ok a =>
    constructor
    · exact fun h => ⟨a, rfl, h⟩
    · rintro ⟨a', ha, h⟩
      cases ha
      exact h
  | error e =>
    constructor
    · intro h
      cases h
    · rintro ⟨a, ha, -⟩
      cases ha

/-- A sequence stops in its first part or behind the result of that. -/
theorem bind_eq_error (h : (p >>= k) s = .error e s'') : p s = .error e s'' ∨ ∃ a s', p s = .ok a s' ∧
    k a s' = .error e s'' := by
  cases hp : p s with
  | ok a s' => exact .inr ⟨a, s', rfl, by rwa [bind_ok hp] at h⟩
  | error e' s' =>
    rw [bind_error hp] at h
    cases h
    exact .inl rfl

/-- Only the outcome of the first part matters. -/
theorem bind_congr_left {q : EStateM ε σ α} (h : q s = p s) : (q >>= k) s = (p >>= k) s := by
  cases hp : p s with
  | ok a s' => rw [bind_ok hp, bind_ok (h.trans hp)]
  | error e s' => rw [bind_error hp, bind_error (h.trans hp)]

/-- A sequence ends where its first part stops or where the rest ends. -/
theorem final_bind {Q : σ → Prop} (hstop : ∀ e s', p s = .error e s' → Q s')
    (hk : ∀ a s', p s = .ok a s' → Q (final (k a s'))) : Q (final ((p >>= k) s)) := by
  cases hp : p s with
  | ok a s' =>
    rw [bind_ok hp]
    exact hk a s' hp
  | error e s' =>
    rw [bind_error hp]
    exact hstop e s' hp

/-- However the program ends, its final state is related to the first one. -/
def Keeps (R : σ → σ → Prop) (p : EStateM ε σ α) : Prop := ∀ s, R s (final (p s))

namespace Keeps
variable {R : σ → σ → Prop}

protected theorem pure (hr : ∀ s, R s s) (a : α) : Keeps R (pure a : EStateM ε σ α) := hr

protected theorem throw (hr : ∀ s, R s s) (e : ε) : Keeps R (throw e : EStateM ε σ α) := hr

protected theorem bind (ht : ∀ s s' s'', R s s' → R s' s'' → R s s'') (hp : Keeps R p)
  (hk : ∀ a, Keeps R (k a)) :
    Keeps R (p >>= k) := by
  intro s
  have hfirst := hp s
  cases h : p s with
  | ok a s' =>
    rw [h] at hfirst
    rw [bind_ok h]
    exact ht s s' _ hfirst (hk a s')
  | error e s' =>
    rw [h] at hfirst
    rw [bind_error h]
    exact hfirst

end Keeps

/-- From a state in `I` the program ends in one, and its result is in `P`. -/
def Gives (I : σ → Prop) (P : α → Prop) (p : EStateM ε σ α) : Prop :=
    ∀ s, I s → I (final (p s)) ∧ ∀ a s', p s = .ok a s' → P a

namespace Gives
variable {I : σ → Prop} {P : α → Prop} {Q : β → Prop}

protected theorem pure (h : P a) : Gives I P (pure a : EStateM ε σ α) := by
  refine fun s hs => ⟨hs, fun b s' heq => ?_⟩
  cases heq
  exact h

protected theorem throw (e : ε) : Gives I P (throw e : EStateM ε σ α) := fun _ hs => ⟨hs, nofun⟩

protected theorem get : Gives I I (get : EStateM ε σ σ) := by
  refine fun s hs => ⟨hs, fun b s' heq => ?_⟩
  cases heq
  exact hs

protected theorem bind (hp : Gives I P p) (hk : ∀ a, P a → Gives I Q (k a)) : Gives I Q (p >>= k) := by
  intro s hs
  obtain ⟨hfinal, hok⟩ := hp s hs
  cases hrun : p s with
  | ok a s' =>
    rw [hrun] at hfinal
    rw [bind_ok hrun]
    exact hk a (hok a s' hrun) s' hfinal
  | error e s' =>
    rw [hrun] at hfinal
    rw [bind_error hrun]
    exact ⟨hfinal, nofun⟩

protected theorem ite {c : Prop} [Decidable c] {q : EStateM ε σ α} (hp : Gives I P p) (hq : Gives I P q) :
    Gives I P (if c then p else q) := by
  split
  · exact hp
  · exact hq

end Gives

/-- An outcome, with what a function shows of its state. -/
def through {τ : Type} (f : σ → τ) : EStateM.Result ε σ α → EStateM.Result ε τ α
  | .ok a s => .ok a (f s)
  | .error e s => .error e (f s)

/-- The second program does the first one on what the function shows of the state. -/
def Mirrors {τ : Type} (f : σ → τ) (p : EStateM ε σ α) (q : EStateM ε τ α) : Prop :=
  ∀ s, through f (p s) = q (f s)

namespace Mirrors
variable {τ : Type} {f : σ → τ}

protected theorem pure (a : α) : Mirrors f (pure a : EStateM ε σ α) (pure a) := fun _ => rfl

protected theorem throw (e : ε) : Mirrors f (throw e : EStateM ε σ α) (throw e) := fun _ => rfl

protected theorem bind {q : EStateM ε τ α} {k' : α → EStateM ε τ β} (hp : Mirrors f p q)
    (hk : ∀ a, Mirrors f (k a) (k' a)) : Mirrors f (p >>= k) (q >>= k') := by
  intro s
  have hfirst := hp s
  cases h : p s with
  | ok a s' =>
    rw [h] at hfirst
    rw [bind_ok h, bind_ok hfirst.symm]
    exact hk a s'
  | error e s' =>
    rw [h] at hfirst
    rw [bind_error h, bind_error hfirst.symm]
    rfl

protected theorem ite {c : Prop} [Decidable c] {p' : EStateM ε σ α} {q q' : EStateM ε τ α} (hp : Mirrors f p q)
    (hp' : Mirrors f p' q') : Mirrors f (if c then p else p') (if c then q else q') := by
  split
  · exact hp
  · exact hp'

end Mirrors

end GeckoOS.Lib
