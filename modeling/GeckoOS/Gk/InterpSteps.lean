import GeckoOS.Gk.Interp

/-! Every change of the state that the interpreter makes, and that an evaluation
is a sequence of such changes. -/
namespace GeckoOS.Gk
open Lib

/-- The changes of the state during `eval`, with what is known when each is made. -/
inductive Step : GkState → GkState → Prop
  | print {m : GkState} (text : List UInt8) (h : m.error = none) : Step m { m with output := m.output ++ text }
  | read {m : GkState} (h : m.error = none) : Step m { m with input := m.input.tail }
  | fail {m : GkState} (e : GkError) (h : m.error = none) : Step m { m with error := some e }
  | assign {m : GkState} {name : List UInt8} {val : Value} {vs : List Var} (h : m.error = none)
      (hs : setInScope m.callDepth name val m.vars.reverse = some vs) : Step m { m with vars := vs.reverse }
  | declare {m : GkState} {name : List UInt8} (val : Value) (h : m.error = none)
      (hs : setInScope m.callDepth name val m.vars.reverse = none) (hroom : m.vars.length < maxVars) :
      Step m { m with vars := m.vars ++ [⟨name, val, m.callDepth⟩] }
  | define {m : GkState} (f : FuncDef) (h : m.error = none) (hroom : m.funcs.length < maxFuncs) :
      Step m { m with funcs := m.funcs ++ [f] }
  | jump {m : GkState} (ret brk cont : Bool) (val : Value) :
      Step m { m with returning := ret, breaking := brk, continuing := cont, returnVal := val }
  | enter {m : GkState} (h : m.error = none) (hroom : m.callDepth < maxCallDepth) :
      Step m { m with callDepth := m.callDepth + 1 }
  | pop {m : GkState} (hpos : 0 < m.callDepth) :
      Step m { m with vars := m.vars.rdropWhile fun v => m.callDepth ≤ v.scope }
  | leave {m : GkState} (hpos : 0 < m.callDepth)
      (hpop : m.error = none → ∀ v ∈ m.vars.getLast?, v.scope < m.callDepth) :
      Step m { m with callDepth := m.callDepth - 1 }

/-- A sequence of changes, each for the record, in which the depth stays at `d` or above. -/
inductive Steps (d : Int) : Run → Run → Prop
  | refl (s : Run) : Steps d s s
  | tail {s s' : Run} {m : GkState} (h : Steps d s s') (hstep : Step s'.toGkState m) (hd : d ≤ m.callDepth) :
      Steps d s ⟨m, s'.toGkState :: s'.past⟩

namespace Steps
variable {d d' : Int} {s s' s'' : Run} {P : GkState → Prop} {R : GkState → GkState → Prop}

theorem trans (h : Steps d s s') (h' : Steps d s' s'') : Steps d s s'' := by
  induction h' with
  | refl => exact h
  | tail _ hstep hd ih => exact ih.tail hstep hd

theorem mono (h : Steps d s s') (hle : d' ≤ d) : Steps d' s s' := by
  induction h with
  | refl => exact .refl _
  | tail _ hstep hd ih => exact ih.tail hstep (Int.le_trans hle hd)

/-- What every change keeps holds at the end. -/
theorem invariant (h : Steps d s s') (hstep : ∀ m m', Step m m' → d ≤ m'.callDepth → P m → P m')
    (hs : P s.toGkState) :
    P s'.toGkState := by
  induction h with
  | refl => exact hs
  | tail _ hm hd ih => exact hstep _ _ hm hd ih

/-- What every change keeps holds at every moment since the beginning. -/
theorem moments (h : Steps d s s') (hstep : ∀ m m', Step m m' → d ≤ m'.callDepth → P m → P m')
    (hs : P s.toGkState) :
    ∀ m ∈ s'.moments, m ∈ s.past ∨ P m := by
  induction h with
  | refl =>
    intro m hm
    obtain rfl | hm := List.mem_cons.mp hm
    · exact .inr hs
    · exact .inl hm
  | tail h hm hd ih =>
    intro m' hm'
    obtain rfl | hm' := List.mem_cons.mp hm'
    · exact .inr (hstep _ _ hm hd (h.invariant hstep hs))
    · exact ih m' hm'

/-- A transitive relation that every change is in holds between any two moments. -/
theorem pairwise (h : Steps d s s') (hstep : ∀ m m', Step m m' → R m m')
    (htrans : ∀ m m' m'', R m m' → R m' m'' → R m m'')
    (hs : s.moments.Pairwise fun later earlier => R earlier later) :
    s'.moments.Pairwise fun later earlier => R earlier later := by
  induction h with
  | refl => exact hs
  | tail _ hm _ ih =>
    refine List.pairwise_cons.mpr ⟨fun m' hm' => ?_, ih⟩
    obtain rfl | hm' := List.mem_cons.mp hm'
    · exact hstep _ _ hm
    · exact htrans _ _ _ ((List.pairwise_cons.mp ih).1 m' hm') (hstep _ _ hm)

end Steps

/-- An evaluation from `s` with the outcome `r`: a result leaves the depth as it
was, and a stop never comes after an error. -/
structure Stepped {α : Type} (s : Run) (r : EStateM.Result Stop Run α) : Prop where
  steps : Steps s.callDepth s (final r)
  ok : ∀ a s', r = .ok a s' → s'.callDepth = s.callDepth
  stop : ∀ e s', r = .error e s' → s'.error = none

variable {α β : Type} {s s' : Run} {p : GkM α} {k : α → GkM β} {rest : GkM Value} {n : Node}

namespace Stepped

protected theorem bind (hp : Stepped s (p s)) (hk : ∀ a s', p s = .ok a s' → Stepped s' (k a s')) :
    Stepped s ((p >>= k) s) := by
  cases h : p s with
  | error e s' =>
    rw [bind_error h]
    rw [h] at hp
    refine ⟨hp.steps, fun a s'' he => ?_, fun e' s'' he => hp.stop e s'' ?_⟩
    · cases he
    · cases he
      rfl
  | ok a s' =>
    rw [bind_ok h]
    have hk := hk a s' h
    rw [h] at hp
    have hd := hp.ok a s' rfl
    have hsteps := hk.steps
    rw [hd] at hsteps
    exact ⟨hp.steps.trans hsteps, fun b s'' h' => (hk.ok b s'' h').trans hd, hk.stop⟩

protected theorem pure (a : α) (s : Run) : Stepped s ((pure a : GkM α) s) := by
  refine ⟨.refl s, fun b s' h => ?_, fun e s' h => ?_⟩
  · cases h
    rfl
  · cases h

theorem throw (e : Stop) (h : s.error = none) : Stepped s ((throw e : GkM α) s) := by
  refine ⟨.refl s, fun b s' h => ?_, fun e s' he => ?_⟩
  · cases h
  · cases he
    exact h

/-- A change that leaves the depth as it is. -/
theorem update {f : GkState → GkState} (h : Step s.toGkState (f s.toGkState))
    (hd : (f s.toGkState).callDepth = s.callDepth) : Stepped s (update f s) := by
  refine ⟨.tail (.refl s) h (Int.le_of_eq hd.symm), fun b s' he => ?_, fun e s' he => ?_⟩
  · cases he
    exact hd
  · cases he

end Stepped

/-- The same for a part of a call, which enters or leaves a scope. -/
structure Within {α : Type} (d e : Int) (s : Run) (r : EStateM.Result Stop Run α) : Prop where
  steps : Steps d s (final r)
  ok : ∀ a s', r = .ok a s' → s'.callDepth = e
  stop : ∀ e s', r = .error e s' → s'.error = none

theorem Stepped.within {d : Int} {r : EStateM.Result Stop Run α} (h : Stepped s r) (hd : d ≤ s.callDepth) :
    Within d s.callDepth s r := ⟨h.steps.mono hd, h.ok, h.stop⟩

protected theorem Within.bind {d e e' : Int} (hp : Within d e s (p s))
    (hk : ∀ a s', p s = .ok a s' → s'.callDepth = e → Within d e' s' (k a s')) :
      Within d e' s ((p >>= k) s) := by
  cases h : p s with
  | error x s' =>
    rw [bind_error h]
    rw [h] at hp
    refine ⟨hp.steps, fun a s'' he => ?_, fun e' s'' he => hp.stop x s'' ?_⟩
    · cases he
    · cases he
      rfl
  | ok a s' =>
    rw [bind_ok h]
    rw [h] at hp
    have hk := hk a s' h (hp.ok a s' rfl)
    exact ⟨hp.steps.trans hk.steps, hk.ok, hk.stop⟩

/-! The small functions; those that have an effect begin without an error. -/

theorem stepped_evalError (e : GkError) (h : s.error = none) : Stepped s (evalError e s) :=
  .bind (.update (.fail e h) rfl) fun _ _ _ => .pure _ _

theorem stepped_gkPrint (text : List UInt8) (h : s.error = none) : Stepped s (gkPrint text s) :=
  .update (.print text h) rfl

theorem stepped_unlessError (h : s.error = none → Stepped s (rest s)) : Stepped s (unlessError rest s) := by
  rw [unlessError, bind_ok (get_apply s)]
  cases he : s.error with
  | none => exact h he
  | some e => exact .pure _ _

/-- The variables after `set_var`, if it has room. -/
theorem setVar_cases (name : List UInt8) (val : Value) (s : Run) :
    (∃ vs, setInScope s.callDepth name val s.vars.reverse = some vs ∧
      setVar name val s = .ok true ⟨{ s.toGkState with vars := vs.reverse }, s.toGkState :: s.past⟩) ∨
    (setInScope s.callDepth name val s.vars.reverse = none ∧ s.vars.length < maxVars ∧
      setVar name val s =
        .ok true ⟨{ s.toGkState with vars := s.vars ++ [⟨name, val, s.callDepth⟩] }, s.toGkState :: s.past⟩) ∨
    (setInScope s.callDepth name val s.vars.reverse = none ∧ maxVars ≤ s.vars.length ∧
      setVar name val s =
        .ok false ⟨{ s.toGkState with error := some .tooManyVariables }, s.toGkState :: s.past⟩) := by
  rw [setVar, bind_ok (get_apply s)]
  cases h : setInScope s.callDepth name val s.vars.reverse with
  | some vs => exact .inl ⟨vs, rfl, rfl⟩
  | none =>
    by_cases hroom : maxVars ≤ s.vars.length
    · exact .inr (.inr ⟨rfl, hroom, by simp only [if_pos hroom]; rfl⟩)
    · exact .inr (.inl ⟨rfl, by omega, by simp only [if_neg hroom]; rfl⟩)

theorem stepped_setVar (name : List UInt8) (val : Value) (h : s.error = none) :
    Stepped s (setVar name val s) := by
  obtain ⟨vs, hs, hrun⟩ | ⟨hs, hroom, hrun⟩ | ⟨hs, hfull, hrun⟩ := setVar_cases name val s
  · rw [hrun]
    exact ⟨.tail (.refl s) (.assign h hs) (Int.le_refl _),
      fun _ _ he => by cases he; rfl, fun _ _ he => by cases he⟩
  · rw [hrun]
    exact ⟨.tail (.refl s) (.declare val h hs hroom) (Int.le_refl _), fun _ _ he => by cases he; rfl,
      fun _ _ he => by cases he⟩
  · rw [hrun]
    exact ⟨.tail (.refl s) (.fail _ h) (Int.le_refl _),
      fun _ _ he => by cases he; rfl, fun _ _ he => by cases he⟩

/-- `set_var` reports whether it has set the error. -/
theorem setVar_ok {name : List UInt8} {val : Value} {b : Bool} (h : setVar name val s = .ok b s') :
    (b = true → s'.error = s.error) ∧ (b = false → s'.error = some .tooManyVariables) := by
  obtain ⟨vs, hs, hrun⟩ | ⟨hs, hroom, hrun⟩ | ⟨hs, hfull, hrun⟩ := setVar_cases name val s
  all_goals
    rw [hrun] at h
    cases h
    simp

/-- The evaluation of the children is such an evaluation. -/
def EvalSteps (ev : Option Nat → GkM Value) : Prop := ∀ i s, 0 ≤ s.callDepth → Stepped s (ev i s)

section
variable {ev : Option Nat → GkM Value} (hev : EvalSteps ev) (hd : 0 ≤ s.callDepth)
include hev hd

/-- A child first, and then the rest with what the child has left. -/
private theorem stepped_child {i : Option Nat} {k : Value → GkM α}
    (hk : ∀ v s', 0 ≤ s'.callDepth → Stepped s' (k v s')) :
    Stepped s ((ev i >>= k) s) := by
  have h := hev i s hd
  exact h.bind fun v s' hs => hk v s' (by rw [h.ok v s' hs]; exact hd)

omit hev hd in
theorem stepped_evalVar (he : s.error = none) : Stepped s (evalVar n s) := by
  rw [evalVar, bind_ok (get_apply s)]
  cases findVar s.vars n.strVal with
  | some v => exact .pure _ _
  | none => exact stepped_evalError _ he

theorem stepped_evalAssign : Stepped s (evalAssign ev n s) := by
  refine stepped_child hev hd fun v s' hd' => stepped_unlessError fun he => ?_
  refine .bind (stepped_setVar _ _ he) fun b s'' _ => ?_
  split
  · exact .pure _ _
  · exact .pure _ _

theorem stepped_evalUnop : Stepped s (evalUnop ev n s) := by
  refine stepped_child hev hd fun v s' hd' => stepped_unlessError fun he => ?_
  split
  · split
    · exact .pure _ _
    · exact stepped_evalError _ he
  · split
    · exact .pure _ _
    · exact .pure _ _

omit hev hd in
theorem stepped_strictOp (op : TokenType) (l r : Value) (he : s.error = none) :
    Stepped s (strictOp op l r s) := by
  have hdiv : ∀ a b zero result, Stepped s (divide a b zero result s) := by
    intro a b zero result
    rw [divide]
    split
    · exact stepped_evalError _ he
    · split
      · exact .throw _ he
      · exact .pure _ _
  unfold strictOp
  split
  · exact .pure _ _
  · exact .pure _ _
  · exact .pure _ _
  · unfold integerOp
    split
    all_goals first | exact .pure _ _ | exact hdiv _ _ _ _ | exact stepped_evalError _ he
  · exact stepped_evalError _ he

theorem stepped_evalBinop : Stepped s (evalBinop ev n s) := by
  have hright : ∀ {s : Run}, 0 ≤ s.callDepth →
      Stepped s ((do let r ← ev n.children[1]?; return .bool (isTruthy r) : GkM Value) s) := fun hd' =>
    stepped_child hev hd' fun _ _ _ => .pure _ _
  rw [evalBinop]
  split
  · refine stepped_child hev hd fun l s' hd' => ?_
    split
    · exact hright hd'
    · exact .pure _ _
  · split
    · refine stepped_child hev hd fun l s' hd' => ?_
      split
      · exact .pure _ _
      · exact hright hd'
    · exact stepped_child hev hd fun l s' hd' => stepped_unlessError fun _ =>
        stepped_child hev hd' fun r s'' _ => stepped_unlessError fun he => stepped_strictOp _ _ _ he

theorem stepped_printLoop (cs : List Nat) (he : s.error = none) : Stepped s (printLoop ev cs s) := by
  induction cs generalizing s with
  | nil => exact .bind (stepped_gkPrint _ he) fun _ _ _ => .pure _ _
  | cons c cs ih =>
    refine stepped_child hev hd fun v s' hd' => stepped_unlessError fun he' => ?_
    refine .bind (stepped_gkPrint _ he') fun u s'' h => ?_
    cases h
    exact ih hd' he'

omit hev hd in
theorem stepped_readLine (he : s.error = none) : Stepped s (readLine s) := by
  rw [readLine, bind_ok (get_apply s)]
  refine .bind (.update (.read he) rfl) fun u s' h => ?_
  cases h
  exact .bind (stepped_gkPrint _ he) fun _ _ _ => .pure _ _

theorem stepped_evalInput (he : s.error = none) : Stepped s (evalInput ev n s) := by
  unfold evalInput
  cases n.children with
  | nil => exact stepped_readLine he
  | cons c cs =>
    refine stepped_child hev hd fun v s' hd' => stepped_unlessError fun he' => ?_
    refine .bind (stepped_gkPrint _ he') fun u s'' h => ?_
    cases h
    exact stepped_readLine he'

theorem stepped_evalIntCast (he : s.error = none) : Stepped s (evalIntCast ev n s) := by
  rw [evalIntCast]
  split
  · exact stepped_evalError _ he
  · refine stepped_child hev hd fun v s' hd' => stepped_unlessError fun he' => ?_
    cases v with
    | int v => exact .pure _ _
    | str str =>
      cases hp : parseInt str with
      | some v =>
        simp only [hp]
        exact .pure _ _
      | none =>
        simp only [hp]
        exact stepped_evalError _ he'
    | bool b => exact stepped_evalError _ he'
    | none => exact stepped_evalError _ he'

theorem stepped_blockLoop (cs : List Nat) (last : Value) : Stepped s (blockLoop ev cs last s) := by
  induction cs generalizing s last with
  | nil => exact .pure _ _
  | cons c cs ih =>
    refine stepped_child hev hd fun v s' hd' => ?_
    rw [bind_ok (get_apply s')]
    split
    · exact .pure _ _
    · exact ih hd' _

theorem stepped_evalIf : Stepped s (evalIf ev n s) := by
  refine stepped_child hev hd fun v s' hd' => stepped_unlessError fun he' => ?_
  split
  · exact hev _ _ hd'
  · split
    · exact hev _ _ hd'
    · exact .pure _ _

omit hev hd in
/-- The loop goes on only without an error. -/
theorem stepped_loopGoesOn : Stepped s (loopGoesOn s) ∧ ∀ s', loopGoesOn s = .ok true s' → s'.error = none := by
  rw [loopGoesOn, bind_ok (get_apply s)]
  split
  · exact ⟨.pure _ _, fun s' h => by cases h⟩
  · next hstop =>
    have he : s.error = none := by
      rw [Bool.or_eq_true, not_or] at hstop
      simpa using hstop.1
    split
    · exact ⟨.bind (.update (.jump s.returning false s.continuing s.returnVal) rfl) fun _ _ _ => .pure _ _,
        fun s' h => by cases h⟩
    · split
      · refine ⟨.bind (.update (.jump s.returning s.breaking false s.returnVal) rfl) fun _ _ _ =>
          .pure _ _, fun s' h => ?_⟩
        cases h
        exact he
      · refine ⟨.pure _ _, fun s' h => ?_⟩
        cases h
        exact he

theorem stepped_whileLoop (fuel : Nat) (result : Value) (he : s.error = none) :
    Stepped s (whileLoop ev n fuel result s) := by
  induction fuel generalizing s result with
  | zero => exact .throw _ he
  | succ fuel ih =>
    refine stepped_child hev hd fun cond s' hd' => ?_
    rw [bind_ok (get_apply s')]
    split
    · exact .pure _ _
    · refine stepped_child hev hd' fun result s'' hd'' => ?_
      obtain ⟨hgo, herr⟩ := stepped_loopGoesOn (s := s'')
      refine hgo.bind fun b s₃ h => ?_
      cases b with
      | false => exact .pure _ _
      | true => exact ih (by rw [hgo.ok _ _ h]; exact hd'') result (herr s₃ h)

omit hev hd in
theorem stepped_forLimit (v : Value) (e : GkError) :
    Stepped s (forLimit v e s) ∧ ∀ limit s', forLimit v e s = .ok (some limit) s' → s'.error = none := by
  unfold forLimit
  rw [bind_ok (get_apply s)]
  cases he : s.error with
  | some x => exact ⟨.pure _ _, fun _ _ h => by cases h⟩
  | none =>
    cases v with
    | int limit =>
      refine ⟨.pure _ _, fun _ _ h => ?_⟩
      cases h
      exact he
    | str s => exact ⟨.bind (stepped_evalError e he) fun _ _ _ => .pure _ _, fun _ _ h => by cases h⟩
    | bool b => exact ⟨.bind (stepped_evalError e he) fun _ _ _ => .pure _ _, fun _ _ h => by cases h⟩
    | none => exact ⟨.bind (stepped_evalError e he) fun _ _ _ => .pure _ _, fun _ _ h => by cases h⟩

/-- A limit is found only without an error. -/
theorem stepped_evalLimit (he : s.error = none) :
    Stepped s (evalLimit ev n s) ∧ ∀ limit s', evalLimit ev n s = .ok (some limit) s' → s'.error = none := by
  have hchild : ∀ i e, Stepped s ((do let v ← ev i; forLimit v e : GkM (Option Int)) s) ∧
      ∀ limit s', (do let v ← ev i; forLimit v e : GkM (Option Int)) s = .ok (some limit) s' →
      s'.error = none := by
    refine fun i e => ⟨stepped_child hev hd fun v s' _ => (stepped_forLimit v e).1, fun limit s' h => ?_⟩
    obtain ⟨v, s₁, -, h⟩ := bind_eq_ok h
    exact (stepped_forLimit v e).2 limit s' h
  rw [evalLimit, bind_ok (get_apply s)]
  cases hn : s.nodes[n.children[0]?.getD maxNodes]? with
  | none => exact ⟨.throw _ he, fun _ _ h => by cases h⟩
  | some iter =>
    simp only
    split
    · split
      · exact ⟨.bind (stepped_evalError _ he) fun _ _ _ => .pure _ _, fun _ _ h => by cases h⟩
      · exact hchild _ _
    · exact hchild _ _

theorem stepped_forLoop (left : Nat) (i : Int) (result : Value) (he : s.error = none) :
    Stepped s (forLoop ev n left i result s) := by
  induction left generalizing s i result with
  | zero => exact .pure _ _
  | succ left ih =>
    have hset := stepped_setVar n.strVal (.int i) he
    refine hset.bind fun b s' h => ?_
    cases b with
    | false => exact .pure _ _
    | true =>
      refine stepped_child hev (by rw [hset.ok _ _ h]; exact hd) fun result s'' hd'' => ?_
      obtain ⟨hgo, herr⟩ := stepped_loopGoesOn (s := s'')
      refine hgo.bind fun b s₃ h' => ?_
      cases b with
      | false => exact .pure _ _
      | true => exact ih (by rw [hgo.ok _ _ h']; exact hd'') _ result (herr s₃ h')

theorem stepped_evalFor (he : s.error = none) : Stepped s (evalFor ev n s) := by
  obtain ⟨hlimit, herr⟩ := stepped_evalLimit (n := n) hev hd he
  refine hlimit.bind fun limit s' h => ?_
  cases limit with
  | none => exact .pure _ _
  | some limit => exact stepped_forLoop hev (by rw [hlimit.ok _ _ h]; exact hd) _ _ _ (herr limit s' h)

omit hev hd in
theorem stepped_evalDef (he : s.error = none) : Stepped s (evalDef n s) := by
  rw [evalDef, bind_ok (get_apply s)]
  split
  · exact stepped_evalError _ he
  · next hroom => exact .bind (.update (.define _ he (by omega)) rfl) fun _ _ _ => .pure _ _

/-- All arguments are there only without an error. -/
theorem stepped_evalArgs (cs : List Nat) (he : s.error = none) :
    Stepped s (evalArgs ev cs s) ∧ ∀ args s', evalArgs ev cs s = .ok (some args) s' → s'.error = none := by
  induction cs generalizing s with
  | nil =>
    refine ⟨.pure _ _, fun _ _ h => ?_⟩
    cases h
    exact he
  | cons c cs ih =>
    have hc := hev (some c) s hd
    refine ⟨hc.bind fun v s' h => ?_, fun args s' h => ?_⟩
    · rw [bind_ok (get_apply s')]
      cases he' : s'.error with
      | some x => exact .pure _ _
      | none =>
        refine .bind (ih (by rw [hc.ok _ _ h]; exact hd) he').1 fun vs s'' _ => ?_
        cases vs with
        | none => exact .pure _ _
        | some vs => exact .pure _ _
    · obtain ⟨v, s₁, h₁, h⟩ := bind_eq_ok h
      rw [bind_ok (get_apply s₁)] at h
      cases he' : s₁.error with
      | some x =>
        simp only [he', Option.isSome_some, if_true] at h
        cases h
      | none =>
        simp only [he', Option.isSome_none, Bool.false_eq_true, if_false] at h
        obtain ⟨vs, s₂, h₂, h⟩ := bind_eq_ok h
        cases vs with
        | none => cases h
        | some vs =>
          cases h
          exact (ih (by rw [hc.ok _ _ h₁]; exact hd) he').2 _ _ h₂

omit hev hd in
theorem stepped_bindParams (ps : List (List UInt8 × Value)) (he : s.error = none) :
    Stepped s (bindParams ps s) ∧ ∀ b s', bindParams ps s = .ok b s' → (b = true ↔ s'.error = none) := by
  induction ps generalizing s with
  | nil =>
    refine ⟨.pure _ _, fun b s' h => ?_⟩
    cases h
    simp [he]
  | cons p ps ih =>
    have hset := stepped_setVar p.1 p.2 he
    refine ⟨hset.bind fun b s' h => ?_, fun b s' h => ?_⟩
    · cases b with
      | false => exact .pure _ _
      | true => exact (ih (((setVar_ok h).1 rfl).trans he)).1
    · obtain ⟨b', s₁, h₁, h⟩ := bind_eq_ok h
      cases b' with
      | false =>
        cases h
        simp [(setVar_ok h₁).2 rfl]
      | true => exact (ih (((setVar_ok h₁).1 rfl).trans he)).2 b s' h

/-- After the body no variable of its scope is at the end of the array. -/
theorem stepped_runBody (f : FuncDef) (hpos : 0 < s.callDepth) : Stepped s (runBody ev f s) ∧
    ∀ v s', runBody ev f s = .ok v s' → ∀ w ∈ s'.vars.getLast?, w.scope < s'.callDepth := by
  have hbody := hev f.bodyNode s hd
  refine ⟨hbody.bind fun v s' h => ?_, fun v s' h => ?_⟩
  · rw [bind_ok (get_apply s')]
    refine .bind (.update (.jump false s'.breaking s'.continuing s'.returnVal) rfl) fun u s'' h' => ?_
    cases h'
    refine .bind (.update (.pop ?_) rfl) fun _ _ _ => .pure _ _
    exact hpos.trans_eq (hbody.ok v s' h).symm
  · obtain ⟨result, s₁, h₁, h⟩ := bind_eq_ok h
    rw [bind_ok (get_apply s₁)] at h
    cases h
    intro w hw
    obtain ⟨hne, rfl⟩ := List.mem_getLast?_eq_getLast hw
    simpa using List.rdropWhile_last_not _ _ hne

theorem stepped_applyFunc (f : FuncDef) (args : List Value) (he : s.error = none)
    (hroom : s.callDepth < maxCallDepth) :
    Stepped s (applyFunc ev f args s) := by
  have henter : Within s.callDepth (s.callDepth + 1) s (enterCall s) := by
    refine ⟨.tail (.refl s) (.enter he hroom) (Int.le_add_one (Int.le_refl _)), fun _ _ h =>
      ?_, fun _ _ h => ?_⟩
    · cases h
      rfl
    · cases h
  have hleave : ∀ {s' : Run} (v : Value), s'.callDepth = s.callDepth + 1 →
      (s'.error = none → ∀ w ∈ s'.vars.getLast?, w.scope < s'.callDepth) →
      Within s.callDepth s.callDepth s' ((do leaveCall; return v : GkM Value) s') := by
    intro s' v hd' hlast
    refine ⟨.tail (.refl s') (.leave (by omega) hlast) (by simp [hd']), fun _ _ h => ?_, fun _ _ h => ?_⟩
    · cases h
      simp [hd']
    · cases h
  have hw : Within s.callDepth s.callDepth s (applyFunc ev f args s) := by
    refine henter.bind fun u s₁ h₁ hd₁ => ?_
    cases h₁
    obtain ⟨hbind, herr⟩ := stepped_bindParams (f.params.zip args)
      (s := ⟨{ s.toGkState with callDepth := s.callDepth + 1 }, s.toGkState :: s.past⟩) he
    refine (hbind.within (Int.le_add_one (Int.le_refl _))).bind fun b s₂ h₂ hd₂ => ?_
    cases b with
    | false =>
      refine hleave _ hd₂ fun he₂ => ?_
      exact absurd ((herr _ _ h₂).mpr he₂) (by decide)
    | true =>
      have hd₂' : s₂.callDepth = s.callDepth + 1 := hd₂
      obtain ⟨hbody, hlast⟩ := stepped_runBody hev (s := s₂) (by omega) f (by omega)
      refine (hbody.within (by omega)).bind fun v s₃ h₃ hd₃ => ?_
      exact hleave v (hd₃.trans hd₂') fun _ => hlast v s₃ h₃
  exact ⟨hw.steps, hw.ok, hw.stop⟩

theorem stepped_evalCall (he : s.error = none) : Stepped s (evalCall ev n s) := by
  rw [evalCall, bind_ok (get_apply s)]
  cases hf : findFunc s.funcs n.strVal with
  | none => exact stepped_evalError _ he
  | some f =>
    simp only
    split
    · exact stepped_evalError _ he
    · split
      · exact stepped_evalError _ he
      · next hroom =>
        obtain ⟨hargs, herr⟩ := stepped_evalArgs hev hd n.children he
        refine hargs.bind fun args s' h => ?_
        cases args with
        | none => exact .pure _ _
        | some args =>
          have hd' := hargs.ok _ _ h
          exact stepped_applyFunc hev (by omega) f args (herr args s' h) (by omega)

theorem stepped_evalReturn : Stepped s (evalReturn ev n s) := by
  unfold evalReturn
  cases n.children with
  | nil => exact .bind (.update (.jump true s.breaking s.continuing .none) rfl) fun _ _ _ => .pure _ _
  | cons c cs =>
    exact stepped_child hev hd fun v s' _ => stepped_unlessError fun _ =>
      .bind (.update (.jump true s'.breaking s'.continuing v) rfl) fun _ _ _ => .pure _ _

theorem stepped_evalNode (fuel : Nat) (he : s.error = none) : Stepped s (evalNode ev fuel n s) := by
  unfold evalNode
  cases n.type with
  | int | str | bool => exact .pure _ _
  | var => exact stepped_evalVar he
  | assign => exact stepped_evalAssign hev hd
  | unop => exact stepped_evalUnop hev hd
  | binop => exact stepped_evalBinop hev hd
  | print => exact stepped_printLoop hev hd _ he
  | input => exact stepped_evalInput hev hd he
  | intCast => exact stepped_evalIntCast hev hd he
  | block => exact stepped_blockLoop hev hd _ _
  | ifNode => exact stepped_evalIf hev hd
  | whileNode => exact stepped_whileLoop hev hd _ _ he
  | forNode => exact stepped_evalFor hev hd he
  | defNode => exact stepped_evalDef he
  | call => exact stepped_evalCall hev hd he
  | returnNode => exact stepped_evalReturn hev hd
  | breakNode =>
    exact .bind (.update (.jump s.returning true s.continuing s.returnVal) rfl) fun _ _ _ => .pure _ _
  | continueNode =>
    exact .bind (.update (.jump s.returning s.breaking true s.returnVal) rfl) fun _ _ _ => .pure _ _
  | range => exact stepped_evalError _ he

end

/-- Every evaluation is a sequence of the changes above. -/
theorem stepped_eval (fuel : Nat) : EvalSteps (eval fuel) := by
  induction fuel with
  | zero =>
    intro i s hd
    cases i with
    | none => exact .pure _ _
    | some i =>
      refine stepped_unlessError fun he => ?_
      rw [bind_ok (get_apply s)]
      cases s.nodes[i]? with
      | none => exact .throw _ he
      | some n => exact .throw _ he
  | succ fuel ih =>
    intro i s hd
    cases i with
    | none => exact .pure _ _
    | some i =>
      refine stepped_unlessError fun he => ?_
      rw [bind_ok (get_apply s)]
      cases s.nodes[i]? with
      | none => exact .throw _ he
      | some n => exact stepped_evalNode ih hd fuel he

end GeckoOS.Gk
