import GeckoOS.Gk.Activations
import GeckoOS.Gk.IntRange

/-! The divisions of a script, and when one of them is a fault of the processor. -/
namespace GeckoOS.Gk
open Lib

/-- In `t` the node `j` is a division of the integers `a` and `b`, which are known in `t₂`. -/
structure Divides (fuel j : Nat) (t : Run) (n : Node) (a b : Int) (t₂ : Run) : Prop where
  node : t.nodes[j]? = some n
  type : n.type = .binop
  op : n.op = .slash ∨ n.op = .percent
  operands : ∃ t₁, eval fuel n.children[0]? t = .ok (.int a) t₁ ∧ t₁.error = none ∧
    eval fuel n.children[1]? t₁ = .ok (.int b) t₂ ∧ t₂.error = none

/-- A division by zero is reported; of others the quotient fits into 32 bits, and it or
the rest is the result. -/
def SafeDivision (n : Node) (a b : Int) (t₂ : Run) (r : EStateM.Result Stop Run Value) : Prop :=
  (b = 0 ∧ ∃ t', r = .ok .none t' ∧
    t'.error = some (if n.op = .slash then .divisionByZero else .moduloByZero)) ∨
    (b ≠ 0 ∧ Int32 (a.tdiv b) ∧ r = .ok (.int (if n.op = .slash then a.tdiv b else a.tmod b)) t₂)

variable {fuel j : Nat} {i : Option Nat} {s t t₂ u : Run} {n : Node} {a b : Int}

/-- Only the two operands decide about a division. -/
theorem Divides.apply (h : Divides fuel j t n a b t₂) : eval (fuel + 1) (some j) t =
    divide a b (if n.op = .slash then .divisionByZero else .moduloByZero)
      (if n.op = .slash then a.tdiv b else a.tmod b) t₂ := by
  obtain ⟨t₁, hleft, he₁, hright, he₂⟩ := h.operands
  have hand : n.op ≠ .and := by
    rcases h.op with hop | hop <;> rw [hop] <;> decide
  have hor : n.op ≠ .or := by
    rcases h.op with hop | hop <;> rw [hop] <;> decide
  rw [eval_strict h.node h.type hand hor hleft he₁ hright he₂]
  rcases h.op with hop | hop
  · rw [hop]
    rfl
  · rw [hop]
    rfl

theorem Divides.safe_iff (h : Divides fuel j t n a b t₂) (ht : InRange t) :
    SafeDivision n a b t₂ (eval (fuel + 1) (some j) t) ↔ ¬ (a = -2147483648 ∧ b = -1) := by
  obtain ⟨t₁, hleft, -⟩ := h.operands
  have ha : Int32 a := (gives_eval fuel _ t ht).2 _ _ hleft
  rw [h.apply, divide]
  by_cases hzero : b = 0
  · rw [if_pos hzero]
    refine ⟨fun _ hmin => ?_, fun _ => .inl ⟨hzero, _, rfl, rfl⟩⟩
    rw [hzero] at hmin
    exact absurd hmin.2 (by decide)
  · rw [if_neg hzero]
    by_cases hmin : a = -2147483648 ∧ b = -1
    · rw [if_pos hmin]
      refine ⟨?_, fun hne => absurd hmin hne⟩
      rintro (⟨hb, -⟩ | ⟨-, -, hrun⟩)
      · exact absurd hb hzero
      · cases hrun
    · rw [if_neg hmin]
      exact ⟨fun _ => hmin, fun _ => .inr ⟨hzero, int32_tdiv ha hmin, rfl⟩⟩

/-- Only a division stops so. -/
theorem strictOp_divideError {op : TokenType} {l r : Value} (h : strictOp op l r s = .error .divideError u) :
    (op = .slash ∨ op = .percent) ∧ l = .int (-2147483648) ∧ r = .int (-1) := by
  have hdiv : ∀ {a b zero result}, divide a b zero result s = .error .divideError u → a = -2147483648 ∧
    b = -1 := by
    intro a b zero result h
    rw [divide] at h
    split at h
    · cases h
    · split at h
      · next hmin => exact hmin
      · cases h
  unfold strictOp at h
  split at h
  · cases h
  · cases h
  · cases h
  · unfold integerOp at h
    split at h
    case h_4 =>
      obtain ⟨rfl, rfl⟩ := hdiv h
      exact ⟨.inl rfl, rfl, rfl⟩
    case h_5 =>
      obtain ⟨rfl, rfl⟩ := hdiv h
      exact ⟨.inr rfl, rfl, rfl⟩
    all_goals cases h
  · cases h

theorem unlessError_error {rest : GkM Value} {e : Stop} (h : unlessError rest s = .error e u) :
    s.error = none ∧ rest s = .error e u := by
  rw [unlessError, bind_ok (get_apply s)] at h
  cases he : s.error with
  | some x =>
    rw [he] at h
    cases h
  | none =>
    rw [he] at h
    exact ⟨rfl, h⟩

/-- A division stops so in an operand or by itself. -/
theorem divides_of_divideError (hn : s.nodes[j]? = some n) (htype : n.type = .binop)
    (hop : n.op = .slash ∨ n.op = .percent)
    (h : evalNode (eval fuel) fuel n s = .error .divideError u) :
    (∃ l t, Visits (fun ev => evalNode ev fuel n) (eval fuel) s l t ∧ eval fuel l t = .error .divideError u) ∨
      ∃ t₂, Divides fuel j s n (-2147483648) (-1) t₂ := by
  have hand : n.op ≠ .and := by
    rcases hop with hop | hop <;> rw [hop] <;> decide
  have hor : n.op ≠ .or := by
    rcases hop with hop | hop <;> rw [hop] <;> decide
  have hnode : ∀ ev : Option Nat → GkM Value, evalNode ev fuel n = (do
      let l ← ev n.children[0]?
      unlessError do
        let r ← ev n.children[1]?
        unlessError (strictOp n.op l r)) := by
    intro ev
    rw [evalNode, htype]
    exact evalBinop_strict hand hor
  have hvisits : ∀ {l t}, _ ↔ Visits (fun ev => evalNode ev fuel n) (eval fuel) s l t := fun {l t} =>
    Visits.congr fun ev => (congrFun (hnode ev) s).symm
  rw [hnode] at h
  obtain hleft | ⟨l, s₁, hleft, h⟩ := bind_eq_error h
  · exact .inl ⟨_, s, hvisits.mp (Visits.ask _ _ s).bind_left, hleft⟩
  obtain ⟨he₁, h⟩ := unlessError_error h
  obtain hright | ⟨r, s₂, hright, h⟩ := bind_eq_error h
  · have hask : Asks (fun _ => True) (fun _ _ => True) (fun _ => True) fun ev : Option Nat →
      GkM Value => ev n.children[0]? :=
      .ask trivial
    refine .inl ⟨_, s₁, hvisits.mp (hask.visits_bind_right hleft (visits_unlessError.mpr ⟨he₁, ?_⟩)), hright⟩
    exact (Visits.ask _ _ s₁).bind_left
  · obtain ⟨he₂, h⟩ := unlessError_error h
    obtain ⟨-, rfl, rfl⟩ := strictOp_divideError h
    exact .inr ⟨s₂, hn, htype, hop, s₁, hleft, he₁, hright, he₂⟩

/-- An evaluation stops so only by a division that it leads to. -/
theorem evaluates_of_divideError (h : eval fuel i s = .error .divideError u) :
    ∃ k j t n t₂, Evaluates (fun _ => True) fuel i s (k + 1) (some j) t ∧
    Divides k j t n (-2147483648) (-1) t₂ := by
  induction fuel generalizing i s with
  | zero =>
    cases i with
    | none => cases h
    | some c =>
      obtain ⟨-, h⟩ := unlessError_error h
      rw [bind_ok (get_apply s)] at h
      cases hn : s.nodes[c]? with
      | none =>
        rw [hn] at h
        cases h
      | some n =>
        rw [hn] at h
        cases h
  | succ fuel ih =>
    cases i with
    | none => cases h
    | some c =>
      obtain ⟨he, -⟩ := unlessError_error h
      cases hn : s.nodes[c]? with
      | none =>
        obtain ⟨-, h⟩ := unlessError_error h
        rw [bind_ok (get_apply s), hn] at h
        cases h
      | some n =>
        rw [eval_node hn he] at h
        have hasked : (∃ l t, Visits (fun ev => evalNode ev fuel n) (eval fuel) s l t ∧
          eval fuel l t = .error .divideError u) ∨
            ∃ t₂, Divides fuel c s n (-2147483648) (-1) t₂ := by
          by_cases hdiv : n.type = .binop ∧ (n.op = .slash ∨ n.op = .percent)
          · exact divides_of_divideError hn hdiv.1 hdiv.2 h
          · have hasks := asks_evalNode (X := fun _ => True) (D := fun e => e ≠ .divideError) (n := n)
              (fun _ => trivial)
              (fun _ he => he) (fun ht hop => absurd ⟨ht, hop⟩ hdiv) fuel
            obtain hne | ⟨l, t, -, hv, hl⟩ := hasks.error_cases h
            · exact absurd rfl hne
            · exact .inl ⟨l, t, hv, hl⟩
        obtain ⟨l, t, hv, hl⟩ | ⟨t₂, hdiv⟩ := hasked
        · obtain ⟨k, j, x, m, t₂, hreach, hdiv⟩ := ih hl
          exact ⟨k, j, x, m, t₂, .step hn he trivial hv hreach, hdiv⟩
        · exact ⟨fuel, c, s, n, t₂, .refl _ _ _ _, hdiv⟩

variable {m : GkState} {src : List UInt8} {s₁ s₂ : Run} {root : Nat}

theorem inRange_parsed (hl : gkLex src (begun m) = .ok () s₁) (hp : gkParse s₁ = .ok root s₂) : InRange s₂ := by
  have hshows := shows_parsed hl hp
  refine ⟨by simp [hshows.vars, GkState.store], ?_, gkParse_int32 (gkLex_int32 hl) hp⟩
  have hlex := (gkLex_error src (begun m)).1
  rw [hl] at hlex
  have hparse := (walked_gkParse s₁).state.frame
  rw [hp] at hparse
  have hval : s₂.returnVal = .none :=
    (congrArg GkState.returnVal hparse :).trans (congrArg (fun x : Run => x.returnVal) hlex :)
  rw [hval]
  trivial

/-- Every division of a program reports a zero or has a quotient of 32 bits
exactly if its operands are not the least integer and -1; and a script faults
the processor exactly if it comes to a division of these two. -/
theorem divisions_safe_iff (hl : gkLex src (begun m) = .ok () s₁) (hp : gkParse s₁ = .ok root s₂) :
    (∀ k j t n a b t₂, Evaluates (fun _ => True) fuel (some root) s₂ (k + 1) (some j) t →
      Divides k j t n a b t₂ →
      (SafeDivision n a b t₂ (eval (k + 1) (some j) t) ↔ ¬ (a = -2147483648 ∧ b = -1))) ∧
    ((∃ s', gkRun fuel src (gkInit m).start = .error .divideError s') ↔
      ∃ k j t n t₂, Evaluates (fun _ => True) fuel (some root) s₂ (k + 1) (some j) t ∧
        Divides k j t n (-2147483648) (-1) t₂) := by
  refine ⟨fun k j t n a b t₂ hreach hdiv => hdiv.safe_iff (hreach.inRange (inRange_parsed hl hp)), ?_⟩
  rw [gkRun_parsed hl hp]
  constructor
  · rintro ⟨s', h⟩
    obtain h | ⟨v, s₃, -, h⟩ := bind_eq_error h
    · exact evaluates_of_divideError h
    · rw [bind_ok (get_apply s₃)] at h
      split at h
      · cases h
      · cases h
  · rintro ⟨k, j, t, n, t₂, hreach, hdiv⟩
    have hstop : eval (k + 1) (some j) t = .error .divideError t₂ := by
      rw [hdiv.apply]
      rfl
    exact ⟨t₂, bind_error (hreach.error_eq hstop)⟩

def halfSource : List UInt8 := ascii "x = 7\nx / -2\n"

/-- The node divides 7 by -2. -/
private def halves (c : Nat) (t : Run) : Bool :=
  t.nodes[c]?.any fun n => n.type = .binop && n.op = .slash &&
    match eval 9 n.children[0]? t with
    | .ok v t₁ => v = .int 7 && t₁.error = none &&
      match eval 9 n.children[1]? t₁ with
      | .ok w t₂ => w = .int (-2) && t₂.error = none
      | .error _ _ => false
    | .error _ _ => false

private theorem halfSource_runs : (parsed halfSource).any (fun (_, root, s₂) =>
    (secondStatement 10 root s₂).any fun (c, t) => halves c t) = true := by
  decide +kernel

private theorem divides_of_halves {c : Nat} {t : Run} (h : halves c t = true) :
    ∃ n t₂, n.op = .slash ∧ Divides 9 c t n 7 (-2) t₂ := by
  obtain ⟨n, hn, h⟩ := (Option.any_eq_true _ _).mp h
  simp only [Bool.and_eq_true, decide_eq_true_eq] at h
  obtain ⟨⟨htype, hop⟩, hrun⟩ := h
  cases hleft : eval 9 n.children[0]? t with
  | error e t₁ =>
    rw [hleft] at hrun
    cases hrun
  | ok v t₁ =>
    simp only [hleft, Bool.and_eq_true, decide_eq_true_eq] at hrun
    obtain ⟨⟨rfl, he₁⟩, hrun⟩ := hrun
    cases hright : eval 9 n.children[1]? t₁ with
    | error e t₂ =>
      rw [hright] at hrun
      cases hrun
    | ok w t₂ =>
      simp only [hright, Bool.and_eq_true, decide_eq_true_eq] at hrun
      obtain ⟨rfl, he₂⟩ := hrun
      exact ⟨n, t₂, hop, hn, htype, .inl hop, t₁, hleft, he₁, hright, he₂⟩

/-- The quotient is rounded towards zero. -/
theorem divisions_safe_iff_half : ∃ s₁ s₂ root, gkLex halfSource (begun (freshState [])) = .ok () s₁ ∧
    gkParse s₁ = .ok root s₂ ∧
    ∃ c t t₂, Evaluates (fun _ => True) 11 (some root) s₂ 10 (some c) t ∧
    eval 10 (some c) t = .ok (.int (-3)) t₂ := by
  obtain ⟨⟨s₁, root, s₂⟩, hsome, hruns⟩ := (Option.any_eq_true _ _).mp halfSource_runs
  obtain ⟨hl, hp⟩ := parsed_eq_some hsome
  obtain ⟨⟨c, t⟩, hsecond, hhalves⟩ := (Option.any_eq_true _ _).mp hruns
  have hreach := evaluates_second hsecond (shows_parsed hl hp).error
  obtain ⟨n, t₂, hop, hdiv⟩ := divides_of_halves hhalves
  have hsafe := ((divisions_safe_iff hl hp).1 9 c t n 7 (-2) t₂ hreach hdiv).mpr (by decide)
  refine ⟨s₁, s₂, root, hl, hp, c, t, t₂, hreach, ?_⟩
  obtain ⟨hzero, -⟩ | ⟨-, -, hrun⟩ := hsafe
  · exact absurd hzero (by decide)
  · rw [hop] at hrun
    exact hrun

/-- The least integer, which has no literal, divided by -1. -/
def faultSource : List UInt8 := ascii "print((-2147483647 - 1) / -1)\n"

private theorem faultSource_runs : (parsed faultSource).any (fun (_, root, s₂) =>
    decide (stopOf (eval 10 (some root) s₂) = some .divideError)) = true := by
  decide +kernel

/-- This program faults the processor by a division that has no quotient of 32 bits. -/
theorem least_quotient_faults :
    (∃ s', gkRun 10 faultSource (gkInit (freshState [])).start = .error .divideError s') ∧
    ∃ s₁ s₂ root k j t n a b t₂, gkLex faultSource (begun (freshState [])) = .ok () s₁ ∧
    gkParse s₁ = .ok root s₂ ∧
      Evaluates (fun _ => True) 10 (some root) s₂ (k + 1) (some j) t ∧ Divides k j t n a b t₂ ∧
      ¬ SafeDivision n a b t₂ (eval (k + 1) (some j) t) := by
  obtain ⟨⟨s₁, root, s₂⟩, hsome, hstop⟩ := (Option.any_eq_true _ _).mp faultSource_runs
  obtain ⟨hl, hp⟩ := parsed_eq_some hsome
  obtain ⟨u, hrun⟩ : ∃ u, eval 10 (some root) s₂ = .error .divideError u := by
    have hstop := of_decide_eq_true hstop
    cases hrun : eval 10 (some root) s₂ with
    | ok v s' =>
      rw [hrun] at hstop
      cases hstop
    | error e s' =>
      rw [hrun] at hstop
      cases hstop
      exact ⟨s', rfl⟩
  obtain ⟨k, j, t, n, t₂, hreach, hdiv⟩ := evaluates_of_divideError hrun
  refine ⟨⟨u, ?_⟩, s₁, s₂, root, k, j, t, n, _, _, t₂, hl, hp, hreach, hdiv, fun hsafe => ?_⟩
  · rw [gkRun_parsed hl hp]
    exact bind_error hrun
  · exact (hdiv.safe_iff (hreach.inRange (inRange_parsed hl hp))).mp hsafe ⟨rfl, rfl⟩

end GeckoOS.Gk
