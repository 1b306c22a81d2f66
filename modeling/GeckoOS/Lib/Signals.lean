import GeckoOS.Lib.Programs

/-! Programs that throw their errors, and programs that put them into their state and
go on to no effect: when one of the first kind is reflected by one of the second. -/
namespace GeckoOS.Lib
variable {ε σ ε' τ α β γ δ : Type}

/-- How the errors of one program show in another: in a state with which that one
goes on, or as an error there. -/
structure Signals (ε σ ε' τ : Type) where
  flagged : ε → σ → τ → Prop
  thrown : ε → σ → ε' → τ → Prop

/-- The second outcome reflects the first. Behind a flagged error the result is an idle one. -/
def Reflects (S : Signals ε σ ε' τ) (idle : β → Prop) (R : α → σ → β → τ → Prop) :
    EStateM.Result ε σ α → EStateM.Result ε' τ β → Prop
  | .ok a s, r => ∃ b t, r = .ok b t ∧ R a s b t
  | .error e s, r =>
    (∃ b t, r = .ok b t ∧ idle b ∧ S.flagged e s t) ∨ ∃ e' t, r = .error e' t ∧ S.thrown e s e' t

/-- In a flagged state this program only returns an idle result. -/
def Passive (S : Signals ε σ ε' τ) (idle : β → Prop) (q : EStateM ε' τ β) : Prop :=
  ∀ e s t, S.flagged e s t → ∃ b t', q t = .ok b t' ∧ idle b ∧ S.flagged e s t'

variable {S : Signals ε σ ε' τ} {idle : β → Prop} {idle' : δ → Prop} {R : α → σ → β → τ → Prop}
  {R' : γ → σ → δ → τ → Prop} {p : EStateM ε σ α} {q : EStateM ε' τ β} {k : α → EStateM ε σ γ}
  {l : β → EStateM ε' τ δ} {s : σ} {t : τ}

namespace Passive

protected theorem pure {d : δ} (h : idle' d) : Passive S idle' (pure d : EStateM ε' τ δ) :=
  fun _ _ t ht => ⟨d, t, rfl, h, ht⟩

protected theorem bind (hq : Passive S idle q) (hl : ∀ b, idle b → Passive S idle' (l b)) :
    Passive S idle' (q >>= l) := by
  intro e s t ht
  obtain ⟨b, t', hrun, hb, ht'⟩ := hq e s t ht
  rw [bind_ok hrun]
  exact hl b hb e s t' ht'

protected theorem ite {c : Prop} [Decidable c] {q' : EStateM ε' τ β} (hq : Passive S idle q)
  (hq' : Passive S idle q') :
    Passive S idle (if c then q else q') := by
  split
  · exact hq
  · exact hq'

end Passive

namespace Reflects

/-- Errors that were thrown or flagged before stay what they are. -/
theorem bind_of_ok (hp : Reflects S idle R (p s) (q t)) (hl : ∀ b, idle b → Passive S idle' (l b))
    (hk : ∀ a s' b t', p s = .ok a s' → q t = .ok b t' → R a s' b t' → Reflects S idle' R' (k a s') (l b t')) :
    Reflects S idle' R' ((p >>= k) s) ((q >>= l) t) := by
  cases hrun : p s with
  | ok a s' =>
    rw [hrun] at hp
    obtain ⟨b, t', hq, h⟩ := hp
    rw [bind_ok hrun, bind_ok hq]
    exact hk a s' b t' hrun hq h
  | error e s' =>
    rw [hrun] at hp
    rw [bind_error hrun]
    obtain ⟨b, t', hq, hb, h⟩ | ⟨e', t', hq, h⟩ := hp
    · rw [bind_ok hq]
      obtain ⟨d, t'', hl, hd, h'⟩ := hl b hb e s' t' h
      exact .inl ⟨d, t'', hl, hd, h'⟩
    · rw [bind_error hq]
      exact .inr ⟨e', t', rfl, h⟩

protected theorem bind (hp : Reflects S idle R (p s) (q t)) (hl : ∀ b, idle b → Passive S idle' (l b))
    (hk : ∀ a s' b t', R a s' b t' → Reflects S idle' R' (k a s') (l b t')) :
    Reflects S idle' R' ((p >>= k) s) ((q >>= l) t) := hp.bind_of_ok hl fun a s' b t' _ _ h => hk a s' b t' h

end Reflects

end GeckoOS.Lib
