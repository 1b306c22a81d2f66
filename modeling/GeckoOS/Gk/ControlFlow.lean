import GeckoOS.Gk.ExprMeaning
import GeckoOS.Gk.Scopes

/-! The interpreter with its three flags and its error does what the reference
semantics says of a program without definitions. -/
namespace GeckoOS.Gk
open Lib

variable {nodes : List Node} {σ σ' : Store} {s s' s₁ : Run} {v : Value} {n : Node} {fuel i c : Nat}
  {e : Expr} {fl : Flow}

/-! Expressions inside of statements. -/

/-- Whatever the fuel, an expression that comes to an end has its meaning. -/
theorem means_of_ok (hi : Holds (cell nodes) [e.toTree] [i]) (h : Shows nodes .normal σ s)
    (hrun : eval fuel (some i) s = .ok v s') : Means nodes (e.denote σ) (.ok v s') := by
  obtain ⟨f, hf⟩ := meansAt_expr nodes e
  have hmore := eval_mono (Nat.le_max_left fuel f) (i := some i) (Int.le_of_eq h.depth.symm)
    (by simp [hrun, stopOf])
  rw [← hrun, ← hmore]
  exact hf.mono (Nat.le_max_right fuel f) i σ s hi h

/-- From some fuel on, always the same outcome. -/
theorem eventually_ok {i : Option Nat} (hd : 0 ≤ s.callDepth) (hrun : eval fuel i s = .ok v s') :
    ∀ f ≥ fuel, eval f i s = .ok v s' := fun f hf =>
  (eval_mono hf hd (by simp [hrun, stopOf])).trans hrun

theorem eval_value (hi : Holds (cell nodes) [e.toTree] [i]) (h : Shows nodes .normal σ s)
    (he : e.denote σ = .value v σ') :
    ∃ s' N, (∀ f ≥ N, eval f (some i) s = .ok v s') ∧ Shows nodes .normal σ' s' := by
  obtain ⟨f, hf⟩ := meansAt_expr nodes e
  have hmean := hf i σ s hi h
  rw [he] at hmean
  obtain ⟨s', hrun, h'⟩ := hmean
  exact ⟨s', f, eventually_ok (Int.le_of_eq h.depth.symm) hrun, h'⟩

theorem eval_fault {x : GkError} (hi : Holds (cell nodes) [e.toTree] [i]) (h : Shows nodes .normal σ s)
    (he : e.denote σ = .error x σ') :
    ∃ v s' N, (∀ f ≥ N, eval f (some i) s = .ok v s') ∧ Shows nodes (.error x) σ' s' := by
  obtain ⟨f, hf⟩ := meansAt_expr nodes e
  have hmean := hf i σ s hi h
  rw [he] at hmean
  obtain ⟨v, s', hrun, h'⟩ := hmean
  exact ⟨v, s', f, eventually_ok (Int.le_of_eq h.depth.symm) hrun, h'⟩

/-- A child and the rest, without an error between them and with one. -/
theorem checked_ok {p : GkM Value} {q : Value → GkM Value} (h : p s = .ok v s₁) (he : s₁.error = none) :
    (do let v ← p; unlessError (q v) : GkM Value) s = q v s₁ := by
  rw [bind_ok h, unlessError, bind_ok (get_apply s₁), he]
  rfl

theorem checked_fault {p : GkM Value} {q : Value → GkM Value} (h : p s = .ok v s₁) (he : s₁.error ≠ none) :
    (do let v ← p; unlessError (q v) : GkM Value) s = .ok .none s₁ := by
  obtain ⟨x, he⟩ := Option.ne_none_iff_exists'.mp he
  rw [bind_ok h, unlessError, bind_ok (get_apply s₁), he]
  rfl

theorem Shows.error_ne {x : GkError} (h : Shows nodes (.error x) σ s) : s.error ≠ none := by
  rw [h.error]
  exact Option.some_ne_none x

/-! The tests behind a loop body, for each flow. -/

theorem goesOn_again (h : Shows nodes fl σ s) (hfl : fl.again = true) :
    ∃ s', loopGoesOn s = .ok true s' ∧ Shows nodes .normal σ s' := by
  rw [loopGoesOn, bind_ok (get_apply s), h.error, h.returning, h.breaking, h.continuing]
  cases fl with
  | normal => exact ⟨s, rfl, h⟩
  | cont => exact ⟨_, rfl, { h with continuing := rfl }⟩
  | brk | ret | error => cases hfl

theorem goesOn_brk (h : Shows nodes .brk σ s) : ∃ s', loopGoesOn s = .ok false s' ∧
    Shows nodes .normal σ s' := by
  rw [loopGoesOn, bind_ok (get_apply s), h.error, h.returning, h.breaking, h.continuing]
  exact ⟨_, rfl, { h with breaking := rfl }⟩

theorem goesOn_exits (h : Shows nodes fl σ s) (hfl : fl.exits = true) : loopGoesOn s = .ok false s := by
  rw [loopGoesOn, bind_ok (get_apply s), h.error, h.returning, h.breaking, h.continuing]
  cases fl with
  | ret => rfl
  | error x => rfl
  | normal | cont | brk => cases hfl

/-- A block goes on only in the normal flow. -/
theorem block_stops (h : Shows nodes fl σ s) :
    (s.error.isSome || s.returning || s.breaking || s.continuing) = decide (fl ≠ .normal) := by
  rw [h.error, h.returning, h.breaking, h.continuing]
  cases fl <;> rfl

/-! The limit of a for loop. -/

/-- The outcome of a limit that has this answer. -/
def LimitMeans (nodes : List Node) : Answer → EStateM.Result Stop Run (Option Int) → Prop
  | .value v σ, r => ∃ k s', v = .int k ∧ r = .ok (some k) s' ∧ Shows nodes .normal σ s'
  | .error e σ, r => ∃ s', r = .ok none s' ∧ Shows nodes (.error e) σ s'
  | .trap, r => ∃ s', r = .error .divideError s'

theorem limitMeans_bind {a : Answer} {p : GkM Value} (x : GkError) (hp : Means nodes a (p s)) :
    LimitMeans nodes (a.bind (limit x)) ((do let v ← p; forLimit v x : GkM (Option Int)) s) := by
  cases a with
  | trap =>
    obtain ⟨s', hrun⟩ := hp
    rw [bind_error hrun]
    exact ⟨s', rfl⟩
  | error e σ' =>
    obtain ⟨v, s', hrun, h⟩ := hp
    rw [bind_ok hrun]
    unfold forLimit
    rw [bind_ok (get_apply s'), h.error]
    exact ⟨s', rfl, h⟩
  | value v σ' =>
    obtain ⟨s', hrun, h⟩ := hp
    rw [bind_ok hrun]
    unfold forLimit
    rw [bind_ok (get_apply s'), h.error]
    cases v with
    | int k => exact ⟨k, s', rfl, rfl, h⟩
    | str | bool | none => exact ⟨_, rfl, { h with error := rfl }⟩

/-- An iterable that is no call of `range`. -/
private theorem evalLimit_expr {n' : Node} (hget : s.nodes[c]? = some n') (hn : n.children[0]? = some c)
    (ht : n'.type ≠ .range)
    (fuel : Nat) : evalLimit (eval fuel) n s =
      (do let v ← eval fuel (some c); forLimit v .forLimit : GkM (Option Int)) s := by
  rw [evalLimit, bind_ok (get_apply s), hn, Option.getD_some, hget]
  simp only [if_neg ht]

/-- Which expression decides about the limit. -/
theorem evalLimit_cases {iter : Expr} (hc : Holds (cell nodes) [iter.toTree] [c]) (hn : n.children[0]? = some c)
    (h : Shows nodes .normal σ s) :
    (∃ x s', iter.passes σ = .error x σ ∧ Shows nodes (.error x) σ s' ∧
      ∀ fuel, evalLimit (eval fuel) n s = .ok none s') ∨
    ∃ (e : Expr) (c' : Nat) (x : GkError), Holds (cell nodes) [e.toTree] [c'] ∧
    iter.passes σ = (e.denote σ).bind (limit x) ∧
      ∀ fuel, evalLimit (eval fuel) n s =
        (do let v ← eval fuel (some c'); forLimit v x : GkM (Option Int)) s := by
  have hother : ∀ {a ts}, iter.toTree = .node a ts → a.type ≠ .range →
      ∀ fuel, evalLimit (eval fuel) n s =
        (do let v ← eval fuel (some c); forLimit v .forLimit : GkM (Option Int)) s := by
    intro a ts ht hr
    rw [ht] at hc
    obtain ⟨n', hget, hlabel, -⟩ := node_of_holds hc
    refine evalLimit_expr (h.nodes_eq.symm ▸ hget) hn ?_
    have htype : n'.type = a.type := congrArg Label.type hlabel
    rwa [htype]
  cases iter with
  | int v => exact .inr ⟨_, c, _, hc, rfl, hother (by rw [Expr.toTree]) (by simp)⟩
  | str v => exact .inr ⟨_, c, _, hc, rfl, hother (by rw [Expr.toTree]) (by simp [Label.text])⟩
  | bool b => exact .inr ⟨_, c, _, hc, rfl, hother (by rw [Expr.toTree]) (by simp)⟩
  | var name => exact .inr ⟨_, c, _, hc, rfl, hother (by rw [Expr.toTree]) (by simp [Label.text])⟩
  | unop op e => exact .inr ⟨_, c, _, hc, rfl, hother (by rw [Expr.toTree]) (by simp [Label.operator])⟩
  | binop op l r => exact .inr ⟨_, c, _, hc, rfl, hother (by rw [Expr.toTree]) (by simp [Label.operator])⟩
  | call name args =>
    by_cases hr : callType name = .range
    · rw [Expr.toTree] at hc
      obtain ⟨n', hget, hlabel, hkids⟩ := node_of_holds hc
      have ht : n'.type = .range := (congrArg Label.type hlabel :).trans hr
      rw [← h.nodes_eq] at hget
      simp only [Expr.passes, if_pos hr]
      cases args with
      | nil =>
        have hlen : n'.children.length < 1 := by
          rw [← hkids.length_eq]
          exact Nat.zero_lt_one
        refine .inl ⟨.rangeArguments,
          ⟨{ s.toGkState with error := some .rangeArguments }, s.toGkState :: s.past⟩, rfl,
          { h with error := rfl }, fun fuel => ?_⟩
        rw [evalLimit, bind_ok (get_apply s), hn, Option.getD_some, hget]
        simp only [if_pos ht, if_pos hlen]
        rfl
      | cons e es =>
        rw [exprTrees] at hkids
        obtain ⟨c', cs, hcs, hc', -⟩ := hkids.uncons
        refine .inr ⟨e, c', _, hc', rfl, fun fuel => ?_⟩
        rw [evalLimit, bind_ok (get_apply s), hn, Option.getD_some, hget]
        simp only [if_pos ht, hcs]
        rfl
    · refine .inr ⟨_, c, _, hc, ?_, hother (by rw [Expr.toTree]) hr⟩
      simp only [Expr.passes, if_neg hr]

/-! The nodes of statements, by their children. -/

section
variable {ev : Option Nat → GkM Value} {c' c'' : Nat}

theorem evalNode_assign (ht : n.type = .assign) (hc : n.children = [c]) : evalNode ev fuel n = (do
    let v ← ev (some c)
    unlessError do
      if ← setVar n.strVal v then return v else return .none) := by
  rw [evalNode, ht]
  simp only [evalAssign, hc]
  rfl

theorem evalNode_return (ht : n.type = .returnNode) (hc : n.children = [c]) : evalNode ev fuel n = (do
    let v ← ev (some c)
    unlessError do
      update fun s => { s with returning := true, returnVal := v }
      return v) := by
  rw [evalNode, ht]
  simp only [evalReturn, hc]

theorem evalNode_if (ht : n.type = .ifNode) (hc : n.children = [c, c']) : evalNode ev fuel n = (do
    let v ← ev (some c)
    unlessError (if isTruthy v then ev (some c') else return .none)) := by
  rw [evalNode, ht]
  simp only [evalIf, hc]
  rfl

theorem evalNode_ifElse (ht : n.type = .ifNode) (hc : n.children = [c, c', c'']) : evalNode ev fuel n = (do
    let v ← ev (some c)
    unlessError (if isTruthy v then ev (some c') else ev (some c''))) := by
  rw [evalNode, ht]
  simp only [evalIf, hc]
  rfl

theorem evalNode_while (ht : n.type = .whileNode) : evalNode ev fuel n = whileLoop ev n fuel .none := by
  rw [evalNode, ht]

theorem evalNode_for (ht : n.type = .forNode) : evalNode ev fuel n = evalFor ev n := by
  rw [evalNode, ht]

theorem evalNode_block (ht : n.type = .block) : evalNode ev fuel n = blockLoop ev n.children .none := by
  rw [evalNode, ht]

theorem whileLoop_succ (hc : n.children = [c, c']) (result : Value) : whileLoop ev n (fuel + 1) result = (do
    let cond ← ev (some c)
    if (← get).error.isSome || !isTruthy cond then return result
    else
      let result ← ev (some c')
      if ← loopGoesOn then whileLoop ev n fuel result else return result) := by
  rw [whileLoop, hc]
  rfl

end

/-! From the reference to the interpreter. -/

/-- The outcome of a function of the interpreter, from some fuel on. -/
def Reaches (nodes : List Node) (fl : Flow) (σ : Store) (p : Nat → EStateM.Result Stop Run Value) : Prop :=
  ∃ N v s', (∀ f ≥ N, p f = .ok v s') ∧ Shows nodes fl σ s'

/-- What the interpreter does at the place of a task in the program. -/
def Task.Runs (nodes : List Node) (t : Task) (s : Run) (fl : Flow) (σ : Store) : Prop :=
  match t with
  | .stmt st => ∀ i, Holds (cell nodes) [st.toTree] [i] → Reaches nodes fl σ fun f => eval f (some i) s
  | .seq sts =>
    ∀ cs last, Holds (cell nodes) (stmtTrees sts) cs → Reaches nodes fl σ fun f => blockLoop (eval f) cs last s
  | .loop cond body => ∀ n result, Holds (cell nodes) [cond.toTree, body.toTree] n.children →
    ∃ N v s', (∀ f ≥ N, ∀ b ≥ N, whileLoop (eval f) n b result s = .ok v s') ∧ Shows nodes fl σ s'
  | .passes name body i limit =>
    ∀ n c result, n.strVal = name → n.children[1]? = some c → Holds (cell nodes) [body.toTree] [c] →
    Reaches nodes fl σ fun f => forLoop (eval f) n (limit - i).toNat i result s

theorem Reaches.congr {p q : Nat → EStateM.Result Stop Run Value} (hq : Reaches nodes fl σ q) (N : Nat)
    (hpq : ∀ f ≥ N, p f = q f) : Reaches nodes fl σ p := by
  obtain ⟨M, v, s', hrun, h⟩ := hq
  exact ⟨max N M, v, s', fun f hf => (hpq f (by omega)).trans (hrun f (by omega)), h⟩

/-- One level of the tree. -/
theorem reaches_node {a : Label} {ts : List (Lib.Tree Label)} (hi : Holds (cell nodes) [.node a ts] [i])
    (h : Shows nodes .normal σ s)
    (hnode : ∀ n, n.label = a → Holds (cell nodes) ts n.children →
      Reaches nodes fl σ' fun f => evalNode (eval f) f n s) : Reaches nodes fl σ' fun f =>
        eval f (some i) s := by
  obtain ⟨n, hget, hlabel, hkids⟩ := node_of_holds hi
  obtain ⟨N, v, s', hrun, h'⟩ := hnode n hlabel hkids
  refine ⟨N + 1, v, s', fun f hf => ?_, h'⟩
  obtain ⟨f, rfl⟩ : ∃ g, f = g + 1 := ⟨f - 1, by omega⟩
  exact (eval_node (h.nodes_eq.symm ▸ hget) h.error).trans (hrun f (by omega))

/-- A statement that begins with an expression: with its value, and with its error. -/
theorem reaches_value {q : Nat → Value → GkM Value} (hc : Holds (cell nodes) [e.toTree] [c])
    (h : Shows nodes .normal σ s)
    (he : e.denote σ = .value v σ') {σ'' : Store}
    (hq : ∀ s₁, Shows nodes .normal σ' s₁ → Reaches nodes fl σ'' fun f => q f v s₁) :
    Reaches nodes fl σ'' fun f => (do let v ← eval f (some c); unlessError (q f v) : GkM Value) s := by
  obtain ⟨s₁, N, hrun, h₁⟩ := eval_value hc h he
  exact (hq s₁ h₁).congr N fun f hf => checked_ok (hrun f hf) h₁.error

theorem reaches_fault {q : Nat → Value → GkM Value} {x : GkError} (hc : Holds (cell nodes) [e.toTree] [c])
    (h : Shows nodes .normal σ s) (he : e.denote σ = .error x σ') :
    Reaches nodes (.error x) σ' fun f => (do let v ← eval f (some c); unlessError (q f v) : GkM Value) s := by
  obtain ⟨v, s', N, hrun, h'⟩ := eval_fault hc h he
  exact ⟨N, .none, s', fun f hf => checked_fault (hrun f hf) h'.error_ne, h'⟩

/-- The children of an if or a while statement. -/
theorem two_children {t t' : Lib.Tree Label} {cs : List Nat} (h : Holds (cell nodes) [t, t'] cs) :
    ∃ c c', cs = [c, c'] ∧ Holds (cell nodes) [t] [c] ∧ Holds (cell nodes) [t'] [c'] := by
  obtain ⟨c, _, rfl, hc, h⟩ := h.uncons
  obtain ⟨c', _, rfl, hc', ⟨⟩⟩ := h.uncons
  exact ⟨c, c', rfl, hc, hc'⟩

theorem one_child {t : Lib.Tree Label} {cs : List Nat} (h : Holds (cell nodes) [t] cs) :
    ∃ c, cs = [c] ∧ Holds (cell nodes) [t] [c] := by
  obtain ⟨c, _, rfl, hc, ⟨⟩⟩ := h.uncons
  exact ⟨c, rfl, hc⟩

/-- A limit with a value, and one with an error. -/
theorem reaches_limit {iter : Expr} {a : Answer} (hc : Holds (cell nodes) [iter.toTree] [c])
    (hn : n.children[0]? = some c)
    (h : Shows nodes .normal σ s) (ha : iter.passes σ = a) (htrap : a ≠ .trap) :
    ∃ N o s', (∀ f ≥ N, evalLimit (eval f) n s = .ok o s') ∧ LimitMeans nodes a (.ok o s') := by
  subst ha
  obtain ⟨x, s', hpass, h', hrun⟩ | ⟨e, c', x, hc', hpass, hrun⟩ := evalLimit_cases hc hn h
  · rw [hpass]
    exact ⟨0, none, s', fun f _ => hrun f, s', rfl, h'⟩
  · rw [hpass] at htrap ⊢
    obtain ⟨f, hf⟩ := meansAt_expr nodes e
    have hmean := hf c' σ s hc' h
    have hlimit := limitMeans_bind x hmean
    have hall : ∀ g ≥ f, evalLimit (eval g) n s =
      (do let v ← eval f (some c'); forLimit v x : GkM (Option Int)) s :=
      fun g hg => (hrun g).trans (bind_congr_left (eval_mono hg (Int.le_of_eq h.depth.symm) hmean.stopOf_ne))
    generalize (do let v ← eval f (some c'); forLimit v x : GkM (Option Int)) s = r at hlimit hall
    cases r with
    | ok o s' => exact ⟨f, o, s', hall, hlimit⟩
    | error y s' =>
      cases ha : (e.denote σ).bind (limit x) with
      | trap => exact absurd ha htrap
      | value v σ' =>
        rw [ha] at hlimit
        obtain ⟨k, s'', -, ⟨⟩, -⟩ := hlimit
      | error y σ' =>
        rw [ha] at hlimit
        obtain ⟨s'', ⟨⟩, -⟩ := hlimit

theorem runs_fault {t : Task} {x : GkError} (hhead : t.head σ = some (.error x σ'))
    (h : Shows nodes .normal σ s) :
    t.Runs nodes s (.error x) σ' := by
  cases t with
  | seq | passes => cases hhead
  | loop cond body =>
    intro n result hkids
    obtain ⟨c, c', hcs, hc, -⟩ := two_children hkids
    obtain ⟨v, s', N, hrun, h'⟩ := eval_fault hc h (Option.some.inj hhead)
    refine ⟨N + 1, result, s', fun f hf b hb => ?_, h'⟩
    obtain ⟨b, rfl⟩ : ∃ k, b = k + 1 := ⟨b - 1, by omega⟩
    rw [whileLoop_succ hcs, bind_ok (hrun f (by omega)), bind_ok (get_apply s'), h'.error]
    rfl
  | stmt st =>
    cases st with
    | brk | cont | block | define | loop => cases hhead
    | expr e =>
      intro i hi
      rw [Stmt.toTree] at hi
      obtain ⟨v, s', N, hrun, h'⟩ := eval_fault hi h (Option.some.inj hhead)
      exact ⟨N, v, s', hrun, h'⟩
    | assign name e =>
      intro i hi
      rw [Stmt.toTree] at hi
      refine reaches_node hi h fun n hn hkids => ?_
      obtain ⟨c, hcs, hc⟩ := one_child hkids
      simp only [evalNode_assign (congrArg Label.type hn :) hcs]
      exact reaches_fault hc h (Option.some.inj hhead)
    | ret e =>
      cases e with
      | none => cases hhead
      | some e =>
        intro i hi
        rw [Stmt.toTree] at hi
        refine reaches_node hi h fun n hn hkids => ?_
        obtain ⟨c, hcs, hc⟩ := one_child hkids
        simp only [evalNode_return (congrArg Label.type hn :) hcs]
        exact reaches_fault hc h (Option.some.inj hhead)
    | ite cond body =>
      intro i hi
      rw [Stmt.toTree] at hi
      refine reaches_node hi h fun n hn hkids => ?_
      obtain ⟨c, c', hcs, hc, -⟩ := two_children hkids
      simp only [evalNode_if (congrArg Label.type hn :) hcs]
      exact reaches_fault hc h (Option.some.inj hhead)
    | iteElse cond body els =>
      intro i hi
      rw [Stmt.toTree] at hi
      refine reaches_node hi h fun n hn hkids => ?_
      obtain ⟨c, _, hcs, hc, hkids⟩ := hkids.uncons
      obtain ⟨c', c'', rfl, -⟩ := two_children hkids
      simp only [evalNode_ifElse (congrArg Label.type hn :) hcs]
      exact reaches_fault hc h (Option.some.inj hhead)
    | forIn name iter body =>
      intro i hi
      rw [Stmt.toTree] at hi
      refine reaches_node hi h fun n hn hkids => ?_
      obtain ⟨c, c', hcs, hc, -⟩ := two_children hkids
      obtain ⟨N, o, s', hrun, hmean⟩ := reaches_limit hc (by rw [hcs]; rfl) h (Option.some.inj hhead) (by simp)
      obtain ⟨_, ⟨⟩, h'⟩ := hmean
      simp only [evalNode_for (congrArg Label.type hn :)]
      exact ⟨N, .none, s', fun f hf => bind_ok (hrun f hf), h'⟩

/-- The pass of a while loop whose condition holds. -/
private theorem whileLoop_pass {c' b : Nat} {s₂ : Run} {w result : Value} {ev : Option Nat → GkM Value}
    (hcs : n.children = [c, c'])
    (hcond : ev (some c) s = .ok v s₁) (he : s₁.error = none) (hv : isTruthy v = true)
    (hbody : ev (some c') s₁ = .ok w s₂) :
    whileLoop ev n (b + 1) result s =
      (do if ← loopGoesOn then whileLoop ev n b w else return w : GkM Value) s₂ := by
  rw [whileLoop_succ hcs, bind_ok hcond, bind_ok (get_apply s₁), he, hv]
  simp only [Option.isSome_none, Bool.not_true, Bool.or_self, Bool.false_eq_true, if_false]
  rw [bind_ok hbody]

/-- The pass of a for loop for which there is room. -/
private theorem forLoop_pass {ev : Option Nat → GkM Value} {left : Nat} {i : Int} {w result : Value} {s₂ : Run}
    (hn : n.children[1]? = some c) (hset : setVar n.strVal (.int i) s = .ok true s₁)
    (hbody : ev (some c) s₁ = .ok w s₂) :
    forLoop ev n (left + 1) i result s =
      (do if ← loopGoesOn then forLoop ev n left (i + 1) w else return w : GkM Value) s₂ := by
  rw [forLoop, bind_ok hset, hn]
  simp only [if_true]
  rw [bind_ok hbody]

/-! One lemma for each form of statement. -/

section
variable {σ'' : Store} {name : List UInt8} {cond : Expr} {body els : Stmt} {sts : List Stmt} {st : Stmt}
  {fl' : Flow}
  (h : Shows nodes .normal σ s)
include h

theorem runs_assign (he : e.denote σ = .value v σ') (hset : σ'.set name v = some σ'') :
    (Task.stmt (.assign name e)).Runs nodes s .normal σ'' := by
  intro i hi
  rw [Stmt.toTree] at hi
  refine reaches_node hi h fun n hn hkids => ?_
  have hname : n.strVal = name := congrArg Label.strVal hn
  obtain ⟨c, hcs, hc⟩ := one_child hkids
  simp only [evalNode_assign (congrArg Label.type hn :) hcs, hname]
  refine reaches_value hc h he fun s₁ h₁ => ?_
  obtain ⟨σ', s', hset', hrun, h'⟩ | ⟨s', hset', -⟩ := h₁.set name v
  · rw [hset] at hset'
    cases hset'
    exact ⟨0, v, s', fun f _ => bind_ok hrun, h'⟩
  · rw [hset] at hset'
    cases hset'

theorem runs_assignFull (he : e.denote σ = .value v σ') (hset : σ'.set name v = none) :
    (Task.stmt (.assign name e)).Runs nodes s (.error .tooManyVariables) σ' := by
  intro i hi
  rw [Stmt.toTree] at hi
  refine reaches_node hi h fun n hn hkids => ?_
  have hname : n.strVal = name := congrArg Label.strVal hn
  obtain ⟨c, hcs, hc⟩ := one_child hkids
  simp only [evalNode_assign (congrArg Label.type hn :) hcs, hname]
  refine reaches_value hc h he fun s₁ h₁ => ?_
  obtain ⟨σ', s', hset', -⟩ | ⟨s', -, hrun, h'⟩ := h₁.set name v
  · rw [hset] at hset'
    cases hset'
  · exact ⟨0, .none, s', fun f _ => bind_ok hrun, h'⟩

theorem runs_retNone : (Task.stmt (.ret none)).Runs nodes s .ret σ := by
  intro i hi
  rw [Stmt.toTree] at hi
  refine reaches_node hi h fun n hn hkids => ?_
  have ht : n.type = .returnNode := congrArg Label.type hn
  have hcs : n.children = [] := List.length_eq_zero_iff.mp hkids.length_eq.symm
  refine ⟨0, .none, ⟨{ s.toGkState with returning := true, returnVal := .none }, s.toGkState :: s.past⟩,
    fun f _ => ?_, { h with returning := rfl }⟩
  simp only [evalNode, ht, evalReturn, hcs]
  rfl

theorem runs_ret (he : e.denote σ = .value v σ') : (Task.stmt (.ret (some e))).Runs nodes s .ret σ' := by
  intro i hi
  rw [Stmt.toTree] at hi
  refine reaches_node hi h fun n hn hkids => ?_
  obtain ⟨c, hcs, hc⟩ := one_child hkids
  simp only [evalNode_return (congrArg Label.type hn :) hcs]
  exact reaches_value hc h he fun s₁ h₁ => ⟨0, v, _, fun f _ => rfl, { h₁ with returning := rfl }⟩

theorem runs_brk : (Task.stmt .brk).Runs nodes s .brk σ := by
  intro i hi
  rw [Stmt.toTree] at hi
  refine reaches_node hi h fun n hn _ => ?_
  have ht : n.type = .breakNode := congrArg Label.type hn
  refine ⟨0, .none, ⟨{ s.toGkState with breaking := true }, s.toGkState :: s.past⟩, fun f _ =>
    ?_, { h with breaking := rfl }⟩
  simp only [evalNode, ht]
  rfl

theorem runs_cont : (Task.stmt .cont).Runs nodes s .cont σ := by
  intro i hi
  rw [Stmt.toTree] at hi
  refine reaches_node hi h fun n hn _ => ?_
  have ht : n.type = .continueNode := congrArg Label.type hn
  refine ⟨0, .none, ⟨{ s.toGkState with continuing := true }, s.toGkState :: s.past⟩, fun f _ =>
    ?_, { h with continuing := rfl }⟩
  simp only [evalNode, ht]
  rfl

theorem runs_iteTrue (he : cond.denote σ = .value v σ') (hv : isTruthy v = true)
    (ih : ∀ s, Shows nodes .normal σ' s → (Task.stmt body).Runs nodes s fl σ'') :
    (Task.stmt (.ite cond body)).Runs nodes s fl σ'' := by
  intro i hi
  rw [Stmt.toTree] at hi
  refine reaches_node hi h fun n hn hkids => ?_
  obtain ⟨c, c', hcs, hc, hc'⟩ := two_children hkids
  simp only [evalNode_if (congrArg Label.type hn :) hcs]
  refine reaches_value hc h he fun s₁ h₁ => ?_
  simp only [if_pos hv]
  exact ih s₁ h₁ c' hc'

theorem runs_iteFalse (he : cond.denote σ = .value v σ') (hv : isTruthy v = false) :
    (Task.stmt (.ite cond body)).Runs nodes s .normal σ' := by
  intro i hi
  rw [Stmt.toTree] at hi
  refine reaches_node hi h fun n hn hkids => ?_
  obtain ⟨c, c', hcs, hc, -⟩ := two_children hkids
  simp only [evalNode_if (congrArg Label.type hn :) hcs]
  refine reaches_value hc h he fun s₁ h₁ => ?_
  simp only [hv]
  exact ⟨0, .none, s₁, fun f _ => rfl, h₁⟩

theorem runs_iteElse (he : cond.denote σ = .value v σ')
    (ih : ∀ s, Shows nodes .normal σ' s → (Task.stmt (if isTruthy v then body else els)).Runs nodes s fl σ'') :
    (Task.stmt (.iteElse cond body els)).Runs nodes s fl σ'' := by
  intro i hi
  rw [Stmt.toTree] at hi
  refine reaches_node hi h fun n hn hkids => ?_
  obtain ⟨c, _, hcs, hc, hkids⟩ := hkids.uncons
  obtain ⟨c', c'', rfl, hc', hc''⟩ := two_children hkids
  simp only [evalNode_ifElse (congrArg Label.type hn :) hcs]
  refine reaches_value hc h he fun s₁ h₁ => ?_
  have hbranch := ih s₁ h₁
  split
  · next hv =>
    rw [if_pos hv] at hbranch
    exact hbranch c' hc'
  · next hv =>
    rw [if_neg hv] at hbranch
    exact hbranch c'' hc''

theorem runs_block (ih : (Task.seq sts).Runs nodes s fl σ') : (Task.stmt (.block sts)).Runs nodes s fl σ' := by
  intro i hi
  rw [Stmt.toTree] at hi
  refine reaches_node hi h fun n hn hkids => ?_
  simp only [evalNode_block (congrArg Label.type hn :)]
  exact ih n.children .none hkids

theorem runs_seqEnd : (Task.seq []).Runs nodes s .normal σ := by
  intro cs last hcs
  cases hcs
  exact ⟨0, last, s, fun f _ => rfl, h⟩

omit h in
theorem runs_seqNext (ihst : (Task.stmt st).Runs nodes s .normal σ')
    (ihrest : ∀ s, Shows nodes .normal σ' s → (Task.seq sts).Runs nodes s fl σ'') :
    (Task.seq (st :: sts)).Runs nodes s fl σ'' := by
  intro cs last hcs
  rw [stmtTrees] at hcs
  obtain ⟨c, cs, rfl, hc, hcs⟩ := hcs.uncons
  obtain ⟨N, v, s₁, hrun, h₁⟩ := ihst c hc
  refine (ihrest s₁ h₁ cs v hcs).congr N fun f hf => ?_
  rw [blockLoop, bind_ok (hrun f hf), bind_ok (get_apply s₁), block_stops h₁]
  rfl

omit h in
theorem runs_seqStop (ihst : (Task.stmt st).Runs nodes s fl σ') (hfl : fl ≠ .normal) :
    (Task.seq (st :: sts)).Runs nodes s fl σ' := by
  intro cs last hcs
  rw [stmtTrees] at hcs
  obtain ⟨c, cs, rfl, hc, hcs⟩ := hcs.uncons
  obtain ⟨N, v, s₁, hrun, h₁⟩ := ihst c hc
  refine ⟨N, v, s₁, fun f hf => ?_, h₁⟩
  show blockLoop (eval f) (c :: cs) last s = _
  rw [blockLoop, bind_ok (hrun f hf), bind_ok (get_apply s₁), block_stops h₁, if_pos (decide_eq_true hfl)]
  rfl

theorem runs_loop (ih : (Task.loop cond body).Runs nodes s fl σ') :
    (Task.stmt (.loop cond body)).Runs nodes s fl σ' := by
  intro i hi
  rw [Stmt.toTree] at hi
  refine reaches_node hi h fun n hn hkids => ?_
  simp only [evalNode_while (congrArg Label.type hn :)]
  obtain ⟨N, v, s', hrun, h'⟩ := ih n .none hkids
  exact ⟨N, v, s', fun f hf => hrun f hf f hf, h'⟩

theorem runs_loopEnd (he : cond.denote σ = .value v σ') (hv : isTruthy v = false) :
    (Task.loop cond body).Runs nodes s .normal σ' := by
  intro n result hkids
  obtain ⟨c, c', hcs, hc, -⟩ := two_children hkids
  obtain ⟨s', N, hrun, h'⟩ := eval_value hc h he
  refine ⟨N + 1, result, s', fun f hf b hb => ?_, h'⟩
  obtain ⟨b, rfl⟩ : ∃ k, b = k + 1 := ⟨b - 1, by omega⟩
  rw [whileLoop_succ hcs, bind_ok (hrun f (by omega)), bind_ok (get_apply s'), hv, Bool.not_false, Bool.or_true]
  rfl

/-- A pass, up to the tests behind the body. -/
private theorem whileLoop_reaches (he : cond.denote σ = .value v σ') (hv : isTruthy v = true)
    (ih : ∀ s, Shows nodes .normal σ' s → (Task.stmt body).Runs nodes s fl σ'')
    (hkids : Holds (cell nodes) [cond.toTree, body.toTree] n.children) (result : Value) :
    ∃ N w s₂, (∀ f ≥ N, ∀ b ≥ N, whileLoop (eval f) n (b + 1) result s =
      (do if ← loopGoesOn then whileLoop (eval f) n b w else return w : GkM Value) s₂) ∧
        Shows nodes fl σ'' s₂ := by
  obtain ⟨c, c', hcs, hc, hc'⟩ := two_children hkids
  obtain ⟨s₁, N, hrun, h₁⟩ := eval_value hc h he
  obtain ⟨M, w, s₂, hbody, h₂⟩ := ih s₁ h₁ c' hc'
  exact ⟨max N M, w, s₂, fun f hf b _ =>
    whileLoop_pass hcs (hrun f (by omega)) h₁.error hv (hbody f (by omega)), h₂⟩

theorem runs_loopNext {σ₃ : Store} (he : cond.denote σ = .value v σ') (hv : isTruthy v = true)
    (ih : ∀ s, Shows nodes .normal σ' s → (Task.stmt body).Runs nodes s fl σ'') (hfl : fl.again = true)
    (ihrest : ∀ s, Shows nodes .normal σ'' s → (Task.loop cond body).Runs nodes s fl' σ₃) :
    (Task.loop cond body).Runs nodes s fl' σ₃ := by
  intro n result hkids
  obtain ⟨N, w, s₂, hpass, h₂⟩ := whileLoop_reaches h he hv ih hkids result
  obtain ⟨s₃, hgo, h₃⟩ := goesOn_again h₂ hfl
  obtain ⟨M, w', s', hrest, h'⟩ := ihrest s₃ h₃ n w hkids
  refine ⟨max N M + 1, w', s', fun f hf b hb => ?_, h'⟩
  obtain ⟨b, rfl⟩ : ∃ k, b = k + 1 := ⟨b - 1, by omega⟩
  rw [hpass f (by omega) b (by omega), bind_ok hgo]
  exact hrest f (by omega) b (by omega)

theorem runs_loopBreak (he : cond.denote σ = .value v σ') (hv : isTruthy v = true)
    (ih : ∀ s, Shows nodes .normal σ' s → (Task.stmt body).Runs nodes s .brk σ'') :
    (Task.loop cond body).Runs nodes s .normal σ'' := by
  intro n result hkids
  obtain ⟨N, w, s₂, hpass, h₂⟩ := whileLoop_reaches h he hv ih hkids result
  obtain ⟨s₃, hgo, h₃⟩ := goesOn_brk h₂
  refine ⟨N + 1, w, s₃, fun f hf b hb => ?_, h₃⟩
  obtain ⟨b, rfl⟩ : ∃ k, b = k + 1 := ⟨b - 1, by omega⟩
  rw [hpass f (by omega) b (by omega), bind_ok hgo]
  rfl

theorem runs_loopExit (he : cond.denote σ = .value v σ') (hv : isTruthy v = true)
    (ih : ∀ s, Shows nodes .normal σ' s → (Task.stmt body).Runs nodes s fl σ'') (hfl : fl.exits = true) :
    (Task.loop cond body).Runs nodes s fl σ'' := by
  intro n result hkids
  obtain ⟨N, w, s₂, hpass, h₂⟩ := whileLoop_reaches h he hv ih hkids result
  refine ⟨N + 1, w, s₂, fun f hf b hb => ?_, h₂⟩
  obtain ⟨b, rfl⟩ : ∃ k, b = k + 1 := ⟨b - 1, by omega⟩
  rw [hpass f (by omega) b (by omega), bind_ok (goesOn_exits h₂ hfl)]
  rfl

theorem runs_forIn {iter : Expr} {k : Int} (he : iter.passes σ = .value (.int k) σ')
    (ih : ∀ s, Shows nodes .normal σ' s → (Task.passes name body 0 k).Runs nodes s fl σ'') :
    (Task.stmt (.forIn name iter body)).Runs nodes s fl σ'' := by
  intro i hi
  rw [Stmt.toTree] at hi
  refine reaches_node hi h fun n hn hkids => ?_
  obtain ⟨c, c', hcs, hc, hc'⟩ := two_children hkids
  obtain ⟨N, o, s₁, hrun, hmean⟩ := reaches_limit hc (by rw [hcs]; rfl) h he (by simp)
  obtain ⟨_, _, ⟨⟩, ⟨⟩, h₁⟩ := hmean
  simp only [evalNode_for (congrArg Label.type hn :)]
  have hloop := ih s₁ h₁ n c' .none (congrArg Label.strVal hn) (by rw [hcs]; rfl) hc'
  rw [Int.sub_zero] at hloop
  exact hloop.congr N fun f hf => bind_ok (hrun f hf)

variable {k : Int} {i₀ : Int}

theorem runs_passesEnd (hi : k ≤ i₀) : (Task.passes name body i₀ k).Runs nodes s .normal σ := by
  intro n c result _ _ _
  rw [show (k - i₀).toNat = 0 by omega]
  exact ⟨0, result, s, fun f _ => rfl, h⟩

theorem runs_passesFull (hi : i₀ < k) (hset : σ.set name (.int i₀) = none) :
    (Task.passes name body i₀ k).Runs nodes s (.error .tooManyVariables) σ := by
  intro n c result hname _ _
  rw [show (k - i₀).toNat = (k - i₀ - 1).toNat + 1 by omega]
  obtain ⟨σ', s', hset', -⟩ | ⟨s', -, hrun, h'⟩ := h.set name (.int i₀)
  · rw [hset] at hset'
    cases hset'
  · refine ⟨0, .none, s', fun f _ => ?_, h'⟩
    show forLoop (eval f) n ((k - i₀ - 1).toNat + 1) i₀ result s = _
    rw [forLoop, hname, bind_ok hrun]
    rfl

/-- A pass, up to the tests behind the body. -/
private theorem forLoop_reaches (hset : σ.set name (.int i₀) = some σ')
    (ih : ∀ s, Shows nodes .normal σ' s → (Task.stmt body).Runs nodes s fl σ'') (hname : n.strVal = name)
    (hn : n.children[1]? = some c) (hc : Holds (cell nodes) [body.toTree] [c]) (left : Nat) (result : Value) :
    ∃ N w s₂, (∀ f ≥ N, forLoop (eval f) n (left + 1) i₀ result s =
      (do if ← loopGoesOn then forLoop (eval f) n left (i₀ + 1) w else return w : GkM Value) s₂) ∧
        Shows nodes fl σ'' s₂ := by
  obtain ⟨σ₁, s₁, hset', hrun, h₁⟩ | ⟨s', hset', -⟩ := h.set name (.int i₀)
  · rw [hset] at hset'
    cases hset'
    obtain ⟨N, w, s₂, hbody, h₂⟩ := ih s₁ h₁ c hc
    exact ⟨N, w, s₂, fun f hf => forLoop_pass hn (hname ▸ hrun) (hbody f hf), h₂⟩
  · rw [hset] at hset'
    cases hset'

theorem runs_passesNext {σ₃ : Store} (hi : i₀ < k) (hset : σ.set name (.int i₀) = some σ')
    (ih : ∀ s, Shows nodes .normal σ' s → (Task.stmt body).Runs nodes s fl σ'') (hfl : fl.again = true)
    (ihrest : ∀ s, Shows nodes .normal σ'' s → (Task.passes name body (i₀ + 1) k).Runs nodes s fl' σ₃) :
    (Task.passes name body i₀ k).Runs nodes s fl' σ₃ := by
  intro n c result hname hn hc
  rw [show (k - i₀).toNat = (k - (i₀ + 1)).toNat + 1 by omega]
  obtain ⟨N, w, s₂, hpass, h₂⟩ := forLoop_reaches h hset ih hname hn hc (k - (i₀ + 1)).toNat result
  obtain ⟨s₃, hgo, h₃⟩ := goesOn_again h₂ hfl
  refine (ihrest s₃ h₃ n c w hname hn hc).congr N fun f hf => ?_
  rw [hpass f hf, bind_ok hgo]
  rfl

theorem runs_passesBreak (hi : i₀ < k) (hset : σ.set name (.int i₀) = some σ')
    (ih : ∀ s, Shows nodes .normal σ' s → (Task.stmt body).Runs nodes s .brk σ'') :
    (Task.passes name body i₀ k).Runs nodes s .normal σ'' := by
  intro n c result hname hn hc
  rw [show (k - i₀).toNat = (k - (i₀ + 1)).toNat + 1 by omega]
  obtain ⟨N, w, s₂, hpass, h₂⟩ := forLoop_reaches h hset ih hname hn hc (k - (i₀ + 1)).toNat result
  obtain ⟨s₃, hgo, h₃⟩ := goesOn_brk h₂
  refine ⟨N, w, s₃, fun f hf => (hpass f hf).trans ?_, h₃⟩
  rw [bind_ok hgo]
  rfl

theorem runs_passesExit (hi : i₀ < k) (hset : σ.set name (.int i₀) = some σ')
    (ih : ∀ s, Shows nodes .normal σ' s → (Task.stmt body).Runs nodes s fl σ'') (hfl : fl.exits = true) :
    (Task.passes name body i₀ k).Runs nodes s fl σ'' := by
  intro n c result hname hn hc
  rw [show (k - i₀).toNat = (k - (i₀ + 1)).toNat + 1 by omega]
  obtain ⟨N, w, s₂, hpass, h₂⟩ := forLoop_reaches h hset ih hname hn hc (k - (i₀ + 1)).toNat result
  refine ⟨N, w, s₂, fun f hf => (hpass f hf).trans ?_, h₂⟩
  rw [bind_ok (goesOn_exits h₂ hfl)]
  rfl

end

/-- Every execution of the reference is reached, from some fuel on. -/
theorem runs_of_exec {t : Task} (hexec : Exec t σ fl σ') : ∀ s, Shows nodes .normal σ s →
    t.Runs nodes s fl σ' := by
  induction hexec with
  | fault hhead => exact fun s h => runs_fault hhead h
  | expr he =>
    intro s h i hi
    rw [Stmt.toTree] at hi
    obtain ⟨s', N, hrun, h'⟩ := eval_value hi h he
    exact ⟨N, _, s', hrun, h'⟩
  | assign he hset => exact fun s h => runs_assign h he hset
  | assignFull he hset => exact fun s h => runs_assignFull h he hset
  | retNone => exact fun s h => runs_retNone h
  | ret he => exact fun s h => runs_ret h he
  | brk => exact fun s h => runs_brk h
  | cont => exact fun s h => runs_cont h
  | iteTrue he hv _ ih => exact fun s h => runs_iteTrue h he hv ih
  | iteFalse he hv => exact fun s h => runs_iteFalse h he hv
  | elseTrue he hv _ ih => exact fun s h => runs_iteElse h he (by simpa only [hv, if_true] using ih)
  | elseFalse he hv _ ih =>
    exact fun s h => runs_iteElse h he (by simpa only [hv, Bool.false_eq_true, if_false] using ih)
  | block _ ih => exact fun s h => runs_block h (ih s h)
  | seqEnd => exact fun s h => runs_seqEnd h
  | seqNext _ _ ihst ihrest => exact fun s h => runs_seqNext (ihst s h) ihrest
  | seqStop _ hfl ih => exact fun s h => runs_seqStop (ih s h) hfl
  | loop _ ih => exact fun s h => runs_loop h (ih s h)
  | loopEnd he hv => exact fun s h => runs_loopEnd h he hv
  | loopNext he hv _ hfl _ ih ihrest => exact fun s h => runs_loopNext h he hv ih hfl ihrest
  | loopBreak he hv _ ih => exact fun s h => runs_loopBreak h he hv ih
  | loopExit he hv _ hfl ih => exact fun s h => runs_loopExit h he hv ih hfl
  | forIn he _ ih => exact fun s h => runs_forIn h he ih
  | passesEnd hi => exact fun s h => runs_passesEnd h hi
  | passesFull hi hset => exact fun s h => runs_passesFull h hi hset
  | passesNext hi hset _ hfl _ ih ihrest => exact fun s h => runs_passesNext h hi hset ih hfl ihrest
  | passesBreak hi hset _ ih => exact fun s h => runs_passesBreak h hi hset ih
  | passesExit hi hset _ hfl ih => exact fun s h => runs_passesExit h hi hset ih hfl

end GeckoOS.Gk
