import GeckoOS.Lib.Programs

/-! Programs that use up something of their state, such as the input that is not
read yet. One that takes a piece before each call of itself needs no more fuel
than there are pieces left. -/
namespace GeckoOS.Lib
variable {ε σ α β : Type}

/-- What is left in the states with the invariant, how a later state follows an
earlier one, and the stops for want of fuel. -/
structure Gauge (ε σ : Type) where
  Inv : σ → Prop
  left : σ → Nat
  Follows : σ → σ → Prop
  Lack : ε → Prop
  refl : ∀ s, Follows s s
  trans : ∀ s s' s'', Follows s s' → Follows s' s'' → Follows s s''

namespace Gauge
variable {g : Gauge ε σ} {k k' m m' : Nat} {s : σ} {p : EStateM ε σ α} {f : α → EStateM ε σ β}

/-- An outcome from `s`: a result has used up `k` at least, and nothing was
wanting if less than `m` was left. -/
structure Spends (g : Gauge ε σ) (k m : Nat) (s : σ) (r : EStateM.Result ε σ α) : Prop where
  inv : g.Inv (final r)
  follows : g.Follows s (final r)
  ok : ∀ a s', r = .ok a s' → g.left s' + k ≤ g.left s
  enough : ∀ e s', g.left s < m → r = .error e s' → ¬ g.Lack e

/-- The same from every state with the invariant. -/
def Costs (g : Gauge ε σ) (k m : Nat) (p : EStateM ε σ α) : Prop := ∀ s, g.Inv s → g.Spends k m s (p s)

/-- What the first part has used up is not left for the second, which needs less fuel. -/
protected theorem Spends.bind (hp : g.Spends k m s (p s))
    (hf : ∀ a s', p s = .ok a s' → g.Inv s' → g.Spends k' (m - k) s' (f a s')) :
      g.Spends (k + k') m s ((p >>= f) s) := by
  have hinv := hp.inv
  have hfollows := hp.follows
  cases h : p s with
  | ok a s' =>
    rw [h] at hinv hfollows
    have hleft := hp.ok a s' h
    have hrest := hf a s' h hinv
    rw [bind_ok h]
    refine ⟨hrest.inv, g.trans s s' _ hfollows hrest.follows, fun b s'' h' => ?_, fun e s'' hm => ?_⟩
    · have hleft' := hrest.ok b s'' h'
      omega
    · exact hrest.enough e s'' (by omega)
  | error e s' =>
    rw [h] at hinv hfollows
    rw [bind_error h]
    refine ⟨hinv, hfollows, fun b s'' h' => ?_, fun e' s'' hm h' => ?_⟩
    · cases h'
    · cases h'
      exact hp.enough e s' hm h

theorem Spends.weaken {r : EStateM.Result ε σ α} (h : g.Spends k m s r) (hk : k' ≤ k) (hm : m' ≤ m) :
    g.Spends k' m' s r where
  inv := h.inv
  follows := h.follows
  ok a s' hr := Nat.le_trans (Nat.add_le_add_left hk _) (h.ok a s' hr)
  enough e s' hlt := h.enough e s' (Nat.lt_of_lt_of_le hlt hm)

namespace Costs

theorem weaken (h : g.Costs k m p) (hk : k' ≤ k) (hm : m' ≤ m) : g.Costs k' m' p :=
  fun s hs => (h s hs).weaken hk hm

/-- What is used up may be left unsaid. -/
theorem forget (h : g.Costs k m p) : g.Costs 0 m p := h.weaken (Nat.zero_le k) (Nat.le_refl m)

/-- After a piece is gone, less may be left. -/
theorem pred (h : g.Costs k m p) : g.Costs k (m - 1) p := h.weaken (Nat.le_refl k) (Nat.sub_le m 1)

/-- After a part that may use up nothing. -/
protected theorem bind (hp : g.Costs 0 m p) (hf : ∀ a, g.Costs k m (f a)) : g.Costs k m (p >>= f) := by
  intro s hs
  have h := (hp s hs).bind fun a s' _ hs' => hf a s' hs'
  rwa [Nat.zero_add] at h

/-- After a part that has used up something the rest may use up nothing. -/
theorem spend (hp : g.Costs 1 m p) (hf : ∀ a, g.Costs 0 (m - 1) (f a)) : g.Costs 1 m (p >>= f) := fun s hs =>
  (hp s hs).bind fun a s' _ hs' => hf a s' hs'

protected theorem pure (a : α) : g.Costs 0 m (pure a : EStateM ε σ α) := by
  refine fun s hs => ⟨hs, g.refl s, fun b s' h => ?_, fun e s' _ h => ?_⟩
  · cases h
    exact Nat.le_refl _
  · cases h

/-- A stop for another reason. -/
protected theorem throw {e : ε} (he : ¬ g.Lack e) : g.Costs k m (throw e : EStateM ε σ α) := by
  refine fun s hs => ⟨hs, g.refl s, fun a s' h => ?_, fun e' s' _ h => ?_⟩
  · cases h
  · cases h
    exact he

/-- Without fuel nothing is promised. -/
theorem lack (e : ε) : g.Costs k 0 (throw e : EStateM ε σ α) := by
  refine fun s hs => ⟨hs, g.refl s, fun a s' h => ?_, fun e' s' hlt => absurd hlt (Nat.not_lt_zero _)⟩
  cases h

protected theorem ite {c : Prop} [Decidable c] {q : EStateM ε σ α} (hp : g.Costs k m p) (hq : g.Costs k m q) :
    g.Costs k m (if c then p else q) := by
  split
  · exact hp
  · exact hq

end Costs

end Gauge

end GeckoOS.Lib
