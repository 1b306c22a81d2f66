import GeckoOS.Gk.LanguageExprs
import GeckoOS.Gk.ControlFlow

/-! The interpreter does for every statement, with every amount of fuel, what the language says. -/
namespace GeckoOS.Gk
open Lib

variable {nodes : List Node} {m : Meaning} {ev : Option Nat → GkM Value} {w w' : World} {s s' : Run} {n : Node}
  {v : Value} {e : Expr} {st body : Stmt} {sts : List Stmt} {cs : List Nat} {i c fuel : Nat} {b : Bool}

/-! ### The limit of a for loop -/

/-- A limit, or nothing after an error. -/
def Limited (nodes : List Node) (k : Int) (w : World) (o : Option Int) (s : Run) : Prop :=
  o = some k ∧ Idle nodes w s

abbrev Absent (o : Option Int) : Prop := o = none

theorem reflects_forLimit (h : Idle nodes w s) (v : Value) (x : GkError) :
    Reflects gkSignals Absent (Limited nodes) (passCount x v w) (forLimit v x s) := by
  unfold forLimit
  rw [bind_ok (get_apply s), h.error]
  cases v with
  | int k => exact ⟨some k, s, rfl, rfl, h⟩
  | _ => exact .inl ⟨none, _, rfl, rfl, x, rfl, rfl, h.input, h.output⟩

theorem passive_forLimit (v : Value) (x : GkError) : Passive gkSignals Absent (forLimit v x) := by
  refine passive_get fun s he => ?_
  rw [if_pos (Option.isSome_iff_ne_none.mpr he)]
  exact .pure rfl

section
variable (hm : Agree nodes m ev)
include hm

theorem reflects_count (hc : Holds (cell nodes) [e.toTree] [c]) (h : Idle nodes w s) (x : GkError) :
    Reflects gkSignals Absent (Limited nodes) ((do passCount x (← m.expr e) : Lang Int) w)
      ((do let v ← ev (some c); forLimit v x : GkM (Option Int)) s) := by
  refine (hm.expr e c w s hc h).bind (fun v _ => passive_forLimit v x) ?_
  rintro _ w' v s' ⟨rfl, h'⟩
  exact reflects_forLimit h' v x

theorem reflects_limit {iter : Expr} (hc : Holds (cell nodes) [iter.toTree] [c]) (hn : n.children[0]? = some c)
    (h : Idle nodes w s) :
    Reflects gkSignals Absent (Limited nodes) (limitOf m.expr iter w) (evalLimit ev n s) := by
  -- an iterable that is no call of range
  have hother : ∀ {a ts}, iter.toTree = .node a ts → a.type ≠ .range →
      evalLimit ev n s = (do let v ← ev (some c); forLimit v .forLimit : GkM (Option Int)) s := by
    intro a ts ht hr
    rw [ht] at hc
    obtain ⟨n', hget, hlabel, -⟩ := node_of_holds hc
    rw [← h.nodes_eq] at hget
    have htype : n'.type ≠ .range := by
      rw [show n'.type = a.type from congrArg Label.type hlabel]
      exact hr
    rw [evalLimit, bind_ok (get_apply s), hn, Option.getD_some, hget]
    simp only [if_neg htype]
  cases iter with
  | call name args =>
    rw [limitOf]
    by_cases hr : callType name = .range
    · rw [if_pos hr]
      rw [Expr.toTree] at hc
      obtain ⟨n', hget, hlabel, hkids⟩ := node_of_holds hc
      have ht : n'.type = .range := (congrArg Label.type hlabel :).trans hr
      rw [← h.nodes_eq] at hget
      rw [evalLimit, bind_ok (get_apply s), hn, Option.getD_some, hget]
      cases args with
      | nil =>
        have hlen : n'.children.length < 1 := by
          rw [← hkids.length_eq]
          exact Nat.zero_lt_one
        simp only [if_pos ht, if_pos hlen]
        exact .inl ⟨none, _, rfl, rfl, _, rfl, rfl, h.input, h.output⟩
      | cons e es =>
        rw [exprTrees] at hkids
        obtain ⟨c', cs, hcs, hc', -⟩ := hkids.uncons
        simp only [if_pos ht, hcs]
        exact reflects_count hm hc' h _
    · rw [if_neg hr, hother (by rw [Expr.toTree]) hr]
      exact reflects_count hm hc h _
  | int | str | bool | var | unop | binop =>
    rw [hother (by rw [Expr.toTree]) (by simp [Label.text, Label.operator])]
    exact reflects_count hm hc h _

end

/-! ### Sequences, loops and definitions -/

/-- The children of a definition are its parameters and its body. -/
theorem split_kids {params : List (List UInt8)} {t : Lib.Tree Label}
    (h : Holds (cell nodes) (paramTrees params ++ [t]) cs) :
    ∃ cs' c, cs = cs' ++ [c] ∧ (cs'.map fun c => (nodes[c]?.map (·.strVal)).getD []) = params ∧
      Holds (cell nodes) [t] [c] := by
  induction params generalizing cs with
  | nil =>
    obtain ⟨c, rfl, hc⟩ := one_child h
    exact ⟨[], c, rfl, rfl, hc⟩
  | cons p params ih =>
    obtain ⟨c, cs, rfl, hc, hcs⟩ := Holds.uncons h
    obtain ⟨cs', c', rfl, hnames, hc'⟩ := ih hcs
    obtain ⟨n, hget, hn, -⟩ := node_of_holds hc
    have hname : n.strVal = p := congrArg Label.strVal hn
    refine ⟨c :: cs', c', rfl, ?_, hc'⟩
    rw [List.map_cons, hget, hnames, Option.map_some, hname]
    rfl

theorem Told.normal {x : Value} (h : Idle nodes w s) : Told nodes b (.normal x) w x s :=
  ⟨h.toShown, rfl, h.clean⟩

theorem Told.idle {x : Value} (h : Told nodes b (.normal x) w v s) : Idle nodes w s :=
  { h.1 with clean := h.2.2 }

/-- A statement that only has a value. -/
theorem reflects_normal {p : Lang Value} {q : GkM Value}
    (h : Reflects gkSignals Anything (Valued nodes) (p w) (q s)) :
    Reflects gkSignals Anything (Told nodes b) ((do return .normal (← p) : Lang Ending) w) (q s) := by
  have hbind : Reflects gkSignals Anything (Told nodes b) ((do return .normal (← p) : Lang Ending) w)
      ((q >>= pure) s) := by
    refine h.bind (fun _ _ => .pure trivial) ?_
    rintro _ w' v s' ⟨rfl, h'⟩
    exact ⟨v, s', rfl, .normal h'⟩
  rwa [bind_pure] at hbind

/-- Behind a pass a loop takes up the jump that was made there. -/
theorem reflects_next {e : Ending} (h : Told nodes true e w v s) {rest : Value → Lang Ending}
    {rest' : Value → GkM Value}
    (hrest : ∀ x w' s', Idle nodes w' s' →
      Reflects gkSignals Anything (Told nodes b) (rest x w') (rest' x s')) :
    Reflects gkSignals Anything (Told nodes b) (e.next rest w)
      ((do if ← loopGoesOn then rest' v else return v : GkM Value) s) := by
  obtain ⟨hshown, hend⟩ := h
  cases e with
  | normal x =>
    obtain ⟨rfl, hclean⟩ := hend
    rw [bind_ok (loopGoesOn_clean hclean hshown.error)]
    exact hrest v w s { hshown with clean := hclean }
  | brk =>
    obtain ⟨rfl, hmarks, -⟩ := hend
    have hgo : loopGoesOn s = .ok false ⟨{ s.toGkState with breaking := false }, s.toGkState :: s.past⟩ := by
      rw [loopGoesOn, bind_ok (get_apply s), hshown.error, hmarks.returning, hmarks.breaking]
      rfl
    rw [bind_ok hgo]
    exact ⟨.none, _, rfl, .normal { hshown with clean := ⟨hmarks.returning, rfl, hmarks.continuing⟩ }⟩
  | cont =>
    obtain ⟨rfl, hmarks, -⟩ := hend
    have hgo : loopGoesOn s = .ok true ⟨{ s.toGkState with continuing := false }, s.toGkState :: s.past⟩ := by
      rw [loopGoesOn, bind_ok (get_apply s), hshown.error, hmarks.returning, hmarks.breaking, hmarks.continuing]
      rfl
    rw [bind_ok hgo]
    exact hrest .none w _ { hshown with clean := ⟨hmarks.returning, hmarks.breaking, rfl⟩ }
  | ret x =>
    obtain ⟨hmarks, rfl⟩ := hend
    rw [bind_ok (loopGoesOn_returning hmarks.returning)]
    exact ⟨v, s, rfl, hshown, hmarks, rfl⟩

theorem passive_next {rest' : Value → GkM Value} (v : Value) :
    Passive gkSignals Anything (do if ← loopGoesOn then rest' v else return v) := by
  refine passive_goesOn.bind ?_
  rintro _ rfl
  exact .pure trivial

/-- The node of a definition goes to the end of the functions. -/
theorem reflects_define {name : List UInt8} {params : List (List UInt8)} (hj : body.jumpsFit false = true)
    (hname : n.strVal = name)
    (hkids : Holds (cell nodes) (paramTrees params ++ [body.toTree]) n.children) (h : Idle nodes w s) :
    Reflects gkSignals Anything (Told nodes b)
      ((do defineFunc name ⟨params.take maxParams, body⟩; return .normal .none : Lang Ending) w)
      (evalDef n s) := by
  have hcount : s.funcs.length = w.funcs.length := h.funcs.length_eq.symm
  rw [evalDef, bind_ok (get_apply s), hcount]
  show Reflects _ _ _ ((defineFunc name _ >>= _) w) _
  by_cases hfull : maxFuncs ≤ w.funcs.length
  · have hthrow : defineFunc name ⟨params.take maxParams, body⟩ w = .error (.error .tooManyFunctions) w := by
      rw [defineFunc, bind_ok (get_apply w), if_pos hfull]
      rfl
    rw [bind_error hthrow, if_pos hfull]
    exact reflects_error h.toShown _
  · have hset : defineFunc name ⟨params.take maxParams, body⟩ w =
        .ok () { w with funcs := w.funcs ++ [(name, ⟨params.take maxParams, body⟩)] } := by
      rw [defineFunc, bind_ok (get_apply w), if_neg hfull]
      rfl
    obtain ⟨cs, b', hcs, hparams, hbody⟩ := split_kids hkids
    rw [bind_ok hset, if_neg hfull]
    refine ⟨.none, _, rfl, .normal { h with funcs := ?_, clean := ⟨h.clean.1, h.clean.2, h.clean.3⟩ }⟩
    refine List.rel_append h.funcs (.cons ⟨hname, ?_, hj, b', ?_, hbody⟩ .nil)
    · rw [hcs, List.dropLast_concat, h.nodes_eq, List.map_take, hparams]
    · rw [hcs, List.getLast?_concat]

section
variable (hm : Agree nodes m ev)
include hm

theorem reflects_blockLoop {last : Value} (hj : allJumpsFit b sts = true)
    (hcs : Holds (cell nodes) (stmtTrees sts) cs)
    (h : Idle nodes w s) :
    Reflects gkSignals Anything (Told nodes b) (sequence m.stmt sts last w) (blockLoop ev cs last s) := by
  induction sts generalizing cs last w s with
  | nil =>
    cases hcs
    exact ⟨last, s, rfl, .normal h⟩
  | cons st sts ih =>
    rw [allJumpsFit, Bool.and_eq_true] at hj
    rw [stmtTrees] at hcs
    obtain ⟨c, cs, rfl, hc, hcs⟩ := hcs.uncons
    rw [sequence, blockLoop]
    refine (hm.stmt st b c w s hj.1 hc h).bind (fun v _ => passive_get fun s he => ?_) ?_
    · rw [Option.isSome_iff_ne_none.mpr he]
      exact .pure trivial
    rintro e w' v s' ht
    rw [bind_ok (get_apply s'), ht.1.error]
    cases e with
    | normal x =>
      obtain rfl := ht.2.1
      have hclean := ht.2.2
      rw [hclean.returning, hclean.breaking, hclean.continuing]
      exact ih hj.2 hcs ht.idle
    | brk =>
      rw [ht.2.2.1.returning, ht.2.2.1.breaking]
      exact ⟨v, s', rfl, ht⟩
    | cont =>
      rw [ht.2.2.1.returning, ht.2.2.1.breaking, ht.2.2.1.continuing]
      exact ⟨v, s', rfl, ht⟩
    | ret x =>
      rw [ht.2.1.returning]
      exact ⟨v, s', rfl, ht⟩

theorem reflects_whileLoop {cond : Expr} {last : Value} (hj : body.jumpsFit true = true)
    (hkids : Holds (cell nodes) [cond.toTree, body.toTree] n.children) (h : Idle nodes w s) (fuel : Nat) :
    Reflects gkSignals Anything (Told nodes b) (loopWhile m.expr m.stmt cond body fuel last w)
      (whileLoop ev n fuel last s) := by
  obtain ⟨c, c', hcs, hc, hc'⟩ := two_children hkids
  induction fuel generalizing w s last with
  | zero => exact .inr ⟨.outOfFuel, s, rfl, h.input, h.output, .inr ⟨rfl, rfl⟩⟩
  | succ fuel ih =>
    rw [whileLoop_succ hcs, loopWhile]
    refine (hm.expr cond c w s hc h).bind (fun v _ => passive_get fun s he => ?_) ?_
    · rw [Option.isSome_iff_ne_none.mpr he]
      exact .pure trivial
    rintro _ w' v s' ⟨rfl, h'⟩
    rw [bind_ok (get_apply s'), h'.error]
    cases isTruthy v with
    | false => exact ⟨last, s', rfl, .normal h'⟩
    | true =>
      refine (hm.stmt body true c' w' s' hj hc' h').bind (fun v _ => passive_next v) fun e w'' v s'' ht => ?_
      exact reflects_next ht fun x _ _ h'' => ih h''

theorem reflects_forLoop {name : List UInt8} {last : Value} {i : Int} (hj : body.jumpsFit true = true)
    (hname : n.strVal = name)
    (hn : n.children[1]? = some c) (hc : Holds (cell nodes) [body.toTree] [c]) (h : Idle nodes w s)
    (left : Nat) :
    Reflects gkSignals Anything (Told nodes b) (loopFor m.stmt name body left i last w)
      (forLoop ev n left i last s) := by
  induction left generalizing w s last i with
  | zero => exact ⟨last, s, rfl, .normal h⟩
  | succ left ih =>
    rw [loopFor, forLoop, hname, hn]
    refine (reflects_assign h name (.int i)).bind ?_ ?_
    · rintro _ rfl
      exact .pure trivial
    rintro _ w' _ s' ⟨rfl, h'⟩
    refine (hm.stmt body true c w' s' hj hc h').bind (fun v _ => passive_next v) fun e w'' v s'' ht => ?_
    exact reflects_next ht fun x _ _ h'' => ih h''

/-- What a node of a statement does. -/
theorem reflects_stmtStep {a : Label} {ts : List (Lib.Tree Label)} (ht : st.toTree = .node a ts)
    (hn : n.label = a)
    (hkids : Holds (cell nodes) ts n.children) (hj : st.jumpsFit b = true) (h : Idle nodes w s) :
    Reflects gkSignals Anything (Told nodes b) (stmtStep m.expr m.stmt fuel st w) (evalNode ev fuel n s) := by
  cases st with
  | expr e =>
    rw [Stmt.toTree] at ht
    exact reflects_normal (reflects_exprStep hm ht hn hkids h)
  | assign name e =>
    cases ht
    have hname : n.strVal = name := congrArg Label.strVal hn
    obtain ⟨c, hcs, hc⟩ := one_child hkids
    rw [evalNode_assign (congrArg Label.type hn :) hcs, stmtStep, hname]
    refine reflects_checked (hm.expr e c w s hc h) Valued.error_none ?_
    rintro _ w' v s' ⟨rfl, h'⟩
    refine (reflects_assign h' name v).bind ?_ ?_
    · rintro _ rfl
      exact .pure trivial
    · rintro _ w'' _ s'' ⟨rfl, h''⟩
      exact ⟨v, s'', rfl, .normal h''⟩
  | ret e =>
    cases e with
    | none =>
      cases ht
      have htype : n.type = .returnNode := congrArg Label.type hn
      have hcs : n.children = [] := List.length_eq_zero_iff.mp hkids.length_eq.symm
      simp only [evalNode, htype, evalReturn, hcs]
      exact ⟨.none, _, rfl, { h with }, ⟨rfl, h.clean.breaking, h.clean.continuing⟩, rfl⟩
    | some e =>
      cases ht
      obtain ⟨c, hcs, hc⟩ := one_child hkids
      rw [evalNode_return (congrArg Label.type hn :) hcs, stmtStep]
      refine reflects_checked (hm.expr e c w s hc h) Valued.error_none ?_
      rintro _ w' v s' ⟨rfl, h'⟩
      exact ⟨v, _, rfl, { h' with }, ⟨rfl, h'.clean.breaking, h'.clean.continuing⟩, rfl⟩
  | brk =>
    cases ht
    have htype : n.type = .breakNode := congrArg Label.type hn
    simp only [evalNode, htype]
    exact ⟨.none, _, rfl, { h with }, rfl, ⟨h.clean.returning, rfl, h.clean.continuing⟩, hj⟩
  | cont =>
    cases ht
    have htype : n.type = .continueNode := congrArg Label.type hn
    simp only [evalNode, htype]
    exact ⟨.none, _, rfl, { h with }, rfl, ⟨h.clean.returning, h.clean.breaking, rfl⟩, hj⟩
  | define name params body =>
    cases ht
    have htype : n.type = .defNode := congrArg Label.type hn
    rw [Stmt.jumpsFit] at hj
    rw [evalNode, htype]
    exact reflects_define hj (congrArg Label.strVal hn) hkids h
  | ite cond body =>
    cases ht
    rw [Stmt.jumpsFit] at hj
    obtain ⟨c, c', hcs, hc, hc'⟩ := two_children hkids
    rw [evalNode_if (congrArg Label.type hn :) hcs, stmtStep]
    refine reflects_checked (hm.expr cond c w s hc h) Valued.error_none ?_
    rintro _ w' v s' ⟨rfl, h'⟩
    split
    · exact hm.stmt body b c' w' s' hj hc' h'
    · exact ⟨.none, s', rfl, .normal h'⟩
  | iteElse cond body els =>
    cases ht
    rw [Stmt.jumpsFit, Bool.and_eq_true] at hj
    obtain ⟨c, _, hcs, hc, hkids⟩ := hkids.uncons
    obtain ⟨c', c'', rfl, hc', hc''⟩ := two_children hkids
    rw [evalNode_ifElse (congrArg Label.type hn :) hcs, stmtStep]
    refine reflects_checked (hm.expr cond c w s hc h) Valued.error_none ?_
    rintro _ w' v s' ⟨rfl, h'⟩
    split
    · exact hm.stmt body b c' w' s' hj.1 hc' h'
    · exact hm.stmt els b c'' w' s' hj.2 hc'' h'
  | loop cond body =>
    cases ht
    rw [Stmt.jumpsFit] at hj
    rw [evalNode_while (congrArg Label.type hn :)]
    exact reflects_whileLoop hm hj hkids h fuel
  | forIn name iter body =>
    cases ht
    rw [Stmt.jumpsFit] at hj
    obtain ⟨c, c', hcs, hc, hc'⟩ := two_children hkids
    rw [evalNode_for (congrArg Label.type hn :), evalFor, stmtStep]
    refine (reflects_limit hm hc (by rw [hcs]; rfl) h).bind ?_ ?_
    · rintro _ rfl
      exact .pure trivial
    · rintro k w' _ s' ⟨rfl, h'⟩
      exact reflects_forLoop hm hj (congrArg Label.strVal hn) (by rw [hcs]; rfl) hc' h' k.toNat
  | block sts =>
    cases ht
    rw [Stmt.jumpsFit] at hj
    rw [evalNode_block (congrArg Label.type hn :)]
    exact reflects_blockLoop hm hj hkids h

end

/-! ### All programs -/

private theorem eval_without_fuel {t : Lib.Tree Label} (hi : Holds (cell nodes) [t] [i]) (h : Idle nodes w s) :
    eval 0 (some i) s = .error .outOfFuel s := by
  cases t with
  | node a ts =>
    obtain ⟨n, hget, -⟩ := node_of_holds hi
    rw [eval, evalAt, unlessError, bind_ok (get_apply s), h.error]
    simp only [Option.isSome_none, Bool.false_eq_true, if_false]
    rw [bind_ok (get_apply s), h.nodes_eq, hget]
    rfl

/-- The induction is on the fuel: the children of a node get one unit less, in both. -/
theorem agree_meaning (nodes : List Node) (fuel : Nat) : Agree nodes (meaning fuel) (eval fuel) := by
  induction fuel with
  | zero =>
    refine ⟨fun e i w s hi h => ?_, fun st b i w s _ hi h => ?_, passive_eval 0, stepped_eval 0⟩
    · exact .inr ⟨.outOfFuel, s, eval_without_fuel hi h, h.input, h.output, .inr ⟨rfl, rfl⟩⟩
    · exact .inr ⟨.outOfFuel, s, eval_without_fuel hi h, h.input, h.output, .inr ⟨rfl, rfl⟩⟩
  | succ fuel ih =>
    refine ⟨fun e i w s hi h => ?_, fun st b i w s hj hi h => ?_, passive_eval (fuel + 1),
      stepped_eval (fuel + 1)⟩
    · obtain ⟨a, ts, ht⟩ : ∃ a ts, e.toTree = .node a ts := by
        cases e.toTree with
        | node a ts => exact ⟨a, ts, rfl⟩
      rw [ht] at hi
      obtain ⟨n, hget, hn, hkids⟩ := node_of_holds hi
      rw [eval_node (h.nodes_eq.symm ▸ hget) h.error]
      exact reflects_exprStep ih ht hn hkids h
    · obtain ⟨a, ts, ht⟩ : ∃ a ts, st.toTree = .node a ts := by
        cases st.toTree with
        | node a ts => exact ⟨a, ts, rfl⟩
      rw [ht] at hi
      obtain ⟨n, hget, hn, hkids⟩ := node_of_holds hi
      rw [eval_node (h.nodes_eq.symm ▸ hget) h.error]
      exact reflects_stmtStep ih ht hn hkids hj h

end GeckoOS.Gk
