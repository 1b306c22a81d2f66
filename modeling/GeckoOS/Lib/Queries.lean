import GeckoOS.Lib.Programs

/-! Programs that ask for the evaluation of other things and go on with the
answers: which questions come up, and what the answers mean for the whole. -/
namespace GeckoOS.Lib
open Classical

variable {ε σ ι ρ α β : Type}

/-- Made of own actions and of questions in `X`. An action changes the state as
`A` allows and stops for the reasons in `D`. -/
inductive Asks (X : ι → Prop) (A : σ → σ → Prop) (D : ε → Prop) :
    {α : Type} → ((ι → EStateM ε σ ρ) → EStateM ε σ α) → Prop
  | act {α : Type} {m : EStateM ε σ α} (hA : ∀ s a s', m s = .ok a s' → A s s')
      (hD : ∀ s e s', m s = .error e s' → D e) :
      Asks X A D fun _ => m
  | ask {i : ι} (hi : X i) : Asks X A D fun o => o i
  | bind {α β : Type} {p : (ι → EStateM ε σ ρ) → EStateM ε σ α} {k : (ι → EStateM ε σ ρ) → α → EStateM ε σ β}
      (hp : Asks X A D p) (hk : ∀ a, Asks X A D fun o => k o a) : Asks X A D fun o => p o >>= k o

/-- The same answers, but a stop at the question `i` in the state `t`. -/
noncomputable def stopAt (o : ι → EStateM ε σ ρ) (i : ι) (t : σ) (e : ε) (u : σ) :
    ι → EStateM ε σ ρ := fun j s =>
  if j = i ∧ s = t then .error e u else o j s

/-- From `s` the program comes to the question `i` in the state `t`: any stop there ends it. -/
def Visits (p : (ι → EStateM ε σ ρ) → EStateM ε σ α) (o : ι → EStateM ε σ ρ) (s : σ) (i : ι) (t : σ) : Prop :=
  ∀ e u, p (stopAt o i t e u) s = .error e u

variable {X Y : ι → Prop} {A B : σ → σ → Prop} {D E : ε → Prop} {p : (ι → EStateM ε σ ρ) → EStateM ε σ α}
  {k : (ι → EStateM ε σ ρ) → α → EStateM ε σ β} {o o' : ι → EStateM ε σ ρ} {i : ι} {s s' t u : σ}
  {e : ε} {a : α}

theorem stopAt_self (o : ι → EStateM ε σ ρ) (i : ι) (t : σ) (e : ε) (u : σ) :
    stopAt o i t e u i t = .error e u :=
  if_pos ⟨rfl, rfl⟩

/-- Nothing is new if the answer is this stop already. -/
theorem stopAt_eq (h : o i t = .error e u) : stopAt o i t e u = o := by
  funext j s
  by_cases hj : j = i ∧ s = t
  · obtain ⟨rfl, rfl⟩ := hj
    rw [stopAt_self, h]
  · exact if_neg hj

theorem eq_of_stopAt_ne {j : ι} (h : o j s ≠ stopAt o i t e u j s) : j = i ∧ s = t := by
  by_contra hj
  exact h (if_neg hj).symm

namespace Visits

/-- A stop at a question is the stop of the whole. -/
theorem error_eq (h : Visits p o s i t) (hi : o i t = .error e u) : p o s = .error e u := by
  have hrun := h e u
  rwa [stopAt_eq hi] at hrun

/-- Only what the program does from `s` matters. -/
theorem congr {q : (ι → EStateM ε σ ρ) → EStateM ε σ α} (h : ∀ o, p o s = q o s) :
    Visits p o s i t ↔ Visits q o s i t :=
  forall_congr' fun e => forall_congr' fun u => by rw [h]

theorem ask (o : ι → EStateM ε σ ρ) (i : ι) (s : σ) : Visits (fun o => o i) o s i s := stopAt_self o i s

theorem bind_left (h : Visits p o s i t) : Visits (fun o => p o >>= k o) o s i t :=
  fun e u => bind_error (h e u)

theorem of_ask {j : ι} (h : Visits (fun o => o j) o s i t) [Nontrivial ε] : j = i ∧ s = t := by
  by_contra hj
  obtain ⟨e, e', hne⟩ := exists_pair_ne ε
  have hrun : ∀ e, o j s = .error e s := fun e => (if_neg hj).symm.trans (h e s)
  have heq := (hrun e).symm.trans (hrun e')
  cases heq
  exact hne rfl

/-- What the program keeps if the answers do holds at every question. -/
theorem gives [Nonempty ε] {I : σ → Prop} {P : ρ → Prop} {Q : α → Prop} (h : Visits p o s i t)
    (hp : ∀ o, (∀ j, Gives I P (o j)) → Gives I Q (p o)) (ho : ∀ j, Gives I P (o j)) (hs : I s) : I t := by
  obtain ⟨e⟩ := ‹Nonempty ε›
  have hstop : ∀ j, Gives I P (stopAt o i t e t j) := by
    intro j x hx
    by_cases hj : j = i ∧ x = t
    · obtain ⟨rfl, rfl⟩ := hj
      rw [stopAt_self]
      exact ⟨hx, nofun⟩
    · have heq : stopAt o i t e t j x = o j x := if_neg hj
      rw [heq]
      exact ho j x hx
  have hend := (hp _ hstop s hs).1
  rwa [h e t] at hend

end Visits

theorem not_visits_act [Nontrivial ε] (m : EStateM ε σ α) : ¬ Visits (fun _ => m) o s i t := by
  intro h
  obtain ⟨e, e', hne⟩ := exists_pair_ne ε
  have heq := (h e s).symm.trans (h e' s)
  cases heq
  exact hne rfl

namespace Asks

theorem mono (h : Asks X A D p) (hX : ∀ i, X i → Y i) (hA : ∀ s s', A s s' → B s s')
    (hD : ∀ e, D e → E e) : Asks Y B E p := by
  induction h with
  | act hA' hD' => exact .act (fun s a s' h => hA _ _ (hA' s a s' h)) fun s e s' he => hD e (hD' s e s' he)
  | ask hi => exact .ask (hX _ hi)
  | bind _ _ ihp ihk => exact .bind ihp ihk

protected theorem ite {c : Prop} [Decidable c] {q : (ι → EStateM ε σ ρ) → EStateM ε σ α} (hp : Asks X A D p)
    (hq : Asks X A D q) : Asks X A D fun o => if c then p o else q o := by
  split
  · exact hp
  · exact hq

/-- Where the outcomes differ, a question that comes up has different answers. -/
theorem eq_or_visits (h : Asks X A D p) (o o' : ι → EStateM ε σ ρ) (s : σ) :
    p o s = p o' s ∨ ∃ i t, X i ∧ Visits p o s i t ∧ o i t ≠ o' i t := by
  induction h generalizing o' s with
  | act => exact .inl rfl
  | @ask i hi =>
    by_cases heq : o i s = o' i s
    · exact .inl heq
    · exact .inr ⟨i, s, hi, Visits.ask o i s, heq⟩
  | @bind α β p k _ _ ihp ihk =>
    obtain heq | ⟨i, t, hi, hv, hne⟩ := ihp o' s
    · cases hrun : p o s with
      | error e s' => exact .inl ((bind_error hrun).trans (bind_error (heq.symm.trans hrun)).symm)
      | ok a s' =>
        obtain heq' | ⟨i, t, hi, hv, hne⟩ := ihk a o' s'
        · exact .inl ((bind_ok hrun).trans (heq'.trans (bind_ok (heq.symm.trans hrun)).symm))
        · refine .inr ⟨i, t, hi, fun e u => ?_, hne⟩
          obtain hsame | ⟨j, x, -, hv', hne'⟩ := ihp (stopAt o i t e u) s
          · exact (bind_ok (hsame.symm.trans hrun)).trans (hv e u)
          · obtain ⟨rfl, rfl⟩ := eq_of_stopAt_ne hne'
            exact bind_error (hv' e u)
    · exact .inr ⟨i, t, hi, hv.bind_left, hne⟩

/-- Another stop at a question changes the outcome only if the question comes up. -/
theorem stopAt_apply (h : Asks X A D p) (hv : ¬ Visits p o s i t) (e : ε) (u : σ) :
    p (stopAt o i t e u) s = p o s := by
  obtain heq | ⟨j, x, -, hv', hne⟩ := h.eq_or_visits o (stopAt o i t e u) s
  · exact heq.symm
  · obtain ⟨rfl, rfl⟩ := eq_of_stopAt_ne hne
    exact absurd hv' hv

theorem visits_bind_right (h : Asks X A D p) (hrun : p o s = .ok a s') (hv : Visits (fun o => k o a) o s' i t) :
    Visits (fun o => p o >>= k o) o s i t := by
  by_cases hp : Visits p o s i t
  · exact hp.bind_left
  · exact fun e u => (bind_ok ((h.stopAt_apply hp e u).trans hrun)).trans (hv e u)

/-- A question of a sequence comes up in its first part or behind the result of that. -/
theorem visits_bind [Nontrivial ε] (h : Asks X A D p) (hv : Visits (fun o => p o >>= k o) o s i t) :
    Visits p o s i t ∨ ∃ a s', p o s = .ok a s' ∧ Visits (fun o => k o a) o s' i t := by
  by_cases hp : Visits p o s i t
  · exact .inl hp
  · cases hrun : p o s with
    | ok a s' =>
      exact .inr ⟨a, s', rfl, fun e u => (bind_ok ((h.stopAt_apply hp e u).trans hrun)).symm.trans (hv e u)⟩
    | error e s' =>
      obtain ⟨e', hne⟩ := exists_ne e
      have heq := (hv e' s').symm.trans (bind_error ((h.stopAt_apply hp e' s').trans hrun))
      cases heq
      exact absurd rfl hne

/-- A stop comes from an own action or from a question. -/
theorem error_cases (h : Asks X A D p) (hrun : p o s = .error e u) :
    D e ∨ ∃ i t, X i ∧ Visits p o s i t ∧ o i t = .error e u := by
  induction h generalizing s with
  | act _ hD => exact .inl (hD _ _ _ hrun)
  | @ask i hi => exact .inr ⟨i, s, hi, Visits.ask o i s, hrun⟩
  | @bind α β p k hp _ ihp ihk =>
    cases hfirst : p o s with
    | error e' s' =>
      have heq := (bind_error hfirst).symm.trans hrun
      cases heq
      obtain hD | ⟨i, t, hi, hv, he⟩ := ihp hfirst
      · exact .inl hD
      · exact .inr ⟨i, t, hi, hv.bind_left, he⟩
    | ok a s' =>
      obtain hD | ⟨i, t, hi, hv, he⟩ := ihk a ((bind_ok hfirst).symm.trans hrun)
      · exact .inl hD
      · exact .inr ⟨i, t, hi, hp.visits_bind_right hfirst hv, he⟩

/-- What the actions and the answers keep is kept by the whole. -/
theorem keeps {I : σ → Prop} (h : Asks X A D p) (hA : ∀ s s', A s s' → I s → I s')
    (ho : ∀ i t, X i → Visits p o s i t → I t → ∀ r t', o i t = .ok r t' → I t') (hs : I s)
    (hrun : p o s = .ok a s') : I s' := by
  induction h generalizing s s' with
  | act hA' => exact hA _ _ (hA' _ _ _ hrun) hs
  | @ask i hi => exact ho i s hi (Visits.ask o i s) hs _ s' hrun
  | @bind α β p k hp _ ihp ihk =>
    obtain ⟨b, s₁, hfirst, hrest⟩ := bind_eq_ok hrun
    have hs₁ := ihp (fun i t hi hv => ho i t hi hv.bind_left) hs hfirst
    exact ihk b (fun i t hi hv => ho i t hi (hp.visits_bind_right hfirst hv)) hs₁ hrest

/-- It holds at every question as well. -/
theorem keeps_at [Nontrivial ε] {I : σ → Prop} (h : Asks X A D p) (hA : ∀ s s', A s s' → I s → I s')
    (ho : ∀ i t, X i → Visits p o s i t → I t → ∀ r t', o i t = .ok r t' → I t') (hs : I s)
    (hv : Visits p o s i t) : I t := by
  induction h generalizing s with
  | act => exact absurd hv (not_visits_act _)
  | ask hi =>
    obtain ⟨-, rfl⟩ := hv.of_ask
    exact hs
  | @bind α β p k hp _ ihp ihk =>
    obtain hv | ⟨b, s₁, hfirst, hv⟩ := hp.visits_bind hv
    · exact ihp (fun i t hi hv => ho i t hi hv.bind_left) hs hv
    · have hs₁ := hp.keeps hA (fun i t hi hv => ho i t hi hv.bind_left) hs hfirst
      exact ihk b (fun i t hi hv => ho i t hi (hp.visits_bind_right hfirst hv)) hs₁ hv

end Asks

/-! Which questions a program comes to, by its parts. -/

theorem visits_ite {c : Prop} [Decidable c] {q : (ι → EStateM ε σ ρ) → EStateM ε σ α} :
    Visits (fun o => if c then p o else q o) o s i t ↔ if c then Visits p o s i t else Visits q o s i t := by
  split
  · exact Iff.rfl
  · exact Iff.rfl

theorem visits_ask_bind [Nontrivial ε] {j : ι} {k : (ι → EStateM ε σ ρ) → ρ → EStateM ε σ β} :
    Visits (fun o => o j >>= k o) o s i t ↔
      (j = i ∧ s = t) ∨ ∃ r s', o j s = .ok r s' ∧ Visits (fun o => k o r) o s' i t := by
  have hask : Asks (fun _ => True) (fun _ _ => True) (fun _ => True) fun o : ι → EStateM ε σ ρ => o j :=
    .ask trivial
  constructor
  · intro h
    obtain h | h := hask.visits_bind h
    · exact .inl h.of_ask
    · exact .inr h
  · rintro (⟨rfl, rfl⟩ | ⟨r, s', hrun, h⟩)
    · exact (Visits.ask o j s).bind_left
    · exact hask.visits_bind_right hrun h

theorem visits_act_bind [Nontrivial ε] {m : EStateM ε σ α} :
    Visits (fun o => m >>= k o) o s i t ↔ ∃ a s', m s = .ok a s' ∧ Visits (fun o => k o a) o s' i t := by
  have hact : Asks (fun _ => True) (fun _ _ => True) (fun _ => True) fun _ : ι → EStateM ε σ ρ => m :=
    .act (fun _ _ _ _ => trivial) fun _ _ _ _ => trivial
  constructor
  · intro h
    exact (hact.visits_bind h).resolve_left (not_visits_act m)
  · rintro ⟨a, s', hrun, h⟩
    exact hact.visits_bind_right hrun h

section
variable {run : Nat → ι → EStateM ε σ ρ} {body : Nat → (ι → EStateM ε σ ρ) → ι → EStateM ε σ ρ}
  {via : ι → σ → Prop}
  {f f' f'' : Nat} {j l : ι}

/-- An evaluation that answers its questions by evaluations with less fuel, and
those which it leads to through the ones in `via`. -/
inductive LeadsTo (run : Nat → ι → EStateM ε σ ρ) (body : Nat → (ι → EStateM ε σ ρ) → ι → EStateM ε σ ρ)
    (via : ι → σ → Prop) : Nat → ι → σ → Nat → ι → σ → Prop
  | refl (f : Nat) (i : ι) (s : σ) : LeadsTo run body via f i s f i s
  | step {f f' : Nat} {i j l : ι} {s t u : σ} (hi : via i s) (hv : Visits (fun o => body f o i) (run f) s j t)
      (h : LeadsTo run body via f j t f' l u) : LeadsTo run body via (f + 1) i s f' l u

namespace LeadsTo

theorem trans (h : LeadsTo run body via f i s f' j t) (h' : LeadsTo run body via f' j t f'' l u) :
    LeadsTo run body via f i s f'' l u := by
  induction h with
  | refl => exact h'
  | step hi hv _ ih => exact .step hi hv (ih h')

/-- A stop on the way is the stop of the whole. -/
theorem error_eq (hrun : ∀ f i, run (f + 1) i = body f (run f) i) (h : LeadsTo run body via f i s f' j t)
    (he : run f' j t = .error e u) : run f i s = .error e u := by
  induction h with
  | refl => exact he
  | step _ hv _ ih =>
    rw [hrun]
    exact hv.error_eq (ih he)

/-- What every step to a question keeps. -/
theorem invariant {I : ι → σ → Prop} (h : LeadsTo run body via f i s f' j t)
    (hstep : ∀ f i s j t, via i s → Visits (fun o => body f o i) (run f) s j t → I i s → I j t)
    (hs : I i s) : I j t := by
  induction h with
  | refl => exact hs
  | step hi hv _ ih => exact ih (hstep _ _ _ _ _ hi hv hs)

end LeadsTo
end

end GeckoOS.Lib
