import GeckoOS.Lib.Programs

/-! Two programs that run in step: as long as neither is lost, they come to the
same results and stops in related states. -/
namespace GeckoOS.Lib
variable {ε σ α β : Type}

/-- The reason for which a program stops before its result. -/
def stopOf : EStateM.Result ε σ α → Option ε
  | .ok _ _ => none
  | .error e _ => some e

/-- Outcomes in step. What counts as lost is said of the stop and the last state. -/
inductive Alike (R : σ → σ → Prop) (L₁ L₂ : Option ε → σ → Prop) :
    EStateM.Result ε σ α → EStateM.Result ε σ α → Prop
  | ok {s t : σ} (a : α) (h : R s t) : Alike R L₁ L₂ (.ok a s) (.ok a t)
  | stop {s t : σ} (e : ε) (h : R s t) : Alike R L₁ L₂ (.error e s) (.error e t)
  | left {r₁ r₂ : EStateM.Result ε σ α} (h : L₁ (stopOf r₁) (final r₁)) : Alike R L₁ L₂ r₁ r₂
  | right {r₁ r₂ : EStateM.Result ε σ α} (h : L₂ (stopOf r₂) (final r₂)) : Alike R L₁ L₂ r₁ r₂

/-- Once lost, a run of this program stays lost. -/
def Stays (L : Option ε → σ → Prop) (p : EStateM ε σ α) : Prop := ∀ s, L none s → L (stopOf (p s)) (final (p s))

variable {R : σ → σ → Prop} {L L₁ L₂ : Option ε → σ → Prop} {p p₁ p₂ : EStateM ε σ α}
  {k k₁ k₂ : α → EStateM ε σ β}
  {s t : σ}

/-- A part that is lost makes the whole lost. -/
private theorem lost_bind (hk : ∀ a, Stays L (k a)) (h : L (stopOf (p s)) (final (p s))) :
    L (stopOf ((p >>= k) s)) (final ((p >>= k) s)) := by
  cases hp : p s with
  | ok a s' =>
    rw [hp] at h
    rw [bind_ok hp]
    exact hk a s' h
  | error e s' =>
    rw [hp] at h
    rw [bind_error hp]
    exact h

namespace Stays

protected theorem pure (a : α) : Stays L (pure a : EStateM ε σ α) := fun _ h => h

protected theorem bind (hp : Stays L p) (hk : ∀ a, Stays L (k a)) : Stays L (p >>= k) := fun s h =>
  lost_bind hk (hp s h)

protected theorem ite {c : Prop} [Decidable c] {q : EStateM ε σ α} (hp : Stays L p) (hq : Stays L q) :
    Stays L (if c then p else q) := by
  split
  · exact hp
  · exact hq

end Stays

/-- In step before the rest, and then in the rest by another relation. -/
theorem Alike.andThen {R' : σ → σ → Prop} (hp : Alike R L₁ L₂ (p₁ s) (p₂ t)) (hR : ∀ s t, R s t → R' s t)
    (hl : ∀ a, Stays L₁ (k₁ a)) (hr : ∀ a, Stays L₂ (k₂ a))
    (hk : ∀ a s' t', p₁ s = .ok a s' → R s' t' → Alike R' L₁ L₂ (k₁ a s') (k₂ a t')) :
    Alike R' L₁ L₂ ((p₁ >>= k₁) s) ((p₂ >>= k₂) t) := by
  generalize h₁ : p₁ s = r₁ at hp
  generalize h₂ : p₂ t = r₂ at hp
  cases hp with
  | ok a h =>
    rw [bind_ok h₁, bind_ok h₂]
    exact hk a _ _ h₁ h
  | stop e h =>
    rw [bind_error h₁, bind_error h₂]
    exact .stop e (hR _ _ h)
  | left h => exact .left (lost_bind hl (h₁ ▸ h))
  | right h => exact .right (lost_bind hr (h₂ ▸ h))

protected theorem Alike.bind (hp : Alike R L₁ L₂ (p₁ s) (p₂ t)) (hl : ∀ a, Stays L₁ (k₁ a))
  (hr : ∀ a, Stays L₂ (k₂ a))
    (hk : ∀ a s' t', p₁ s = .ok a s' → R s' t' → Alike R L₁ L₂ (k₁ a s') (k₂ a t')) :
    Alike R L₁ L₂ ((p₁ >>= k₁) s) ((p₂ >>= k₂) t) := hp.andThen (fun _ _ h => h) hl hr hk

end GeckoOS.Lib
