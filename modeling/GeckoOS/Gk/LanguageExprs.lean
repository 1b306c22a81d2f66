import GeckoOS.Gk.LanguageState

/-! The interpreter does on the node of an expression what the language says of the expression. -/
namespace GeckoOS.Gk
open Lib

/-- How jumps and returns show. Only a body in a loop ends with a jump. -/
def Told (nodes : List Node) (inLoop : Bool) (e : Ending) (w : World) (v : Value) (s : Run) : Prop :=
  Shown nodes w s ∧
    match e with
    | .normal x => v = x ∧ s.Clean
    | .brk => v = .none ∧ Marks s false true false ∧ inLoop = true
    | .cont => v = .none ∧ Marks s false false true ∧ inLoop = true
    | .ret x => Marks s true false false ∧ s.returnVal = x

/-- The interpreter on the nodes below does what the language says. -/
structure Agree (nodes : List Node) (m : Meaning) (ev : Option Nat → GkM Value) : Prop where
  expr : ∀ e i w s, Holds (cell nodes) [e.toTree] [i] → Idle nodes w s →
    Reflects gkSignals Anything (Valued nodes) (m.expr e w) (ev (some i) s)
  stmt : ∀ st b i w s, st.jumpsFit b = true → Holds (cell nodes) [st.toTree] [i] → Idle nodes w s →
    Reflects gkSignals Anything (Told nodes b) (m.stmt st w) (ev (some i) s)
  passive : ∀ i, Passive gkSignals Anything (ev i)
  steps : EvalSteps ev

variable {nodes : List Node} {m : Meaning} {ev : Option Nat → GkM Value} {w w' : World} {s s' : Run} {n : Node}
  {v : Value} {e : Expr} {args : List Expr} {cs : List Nat} {i : Nat}

/-! ### Operators -/

/-- An answer as the interpreter gives it. -/
def Answer.code : Answer → GkM Value
  | .value v _ => return v
  | .error e _ => evalError e
  | .trap => throw .divideError

theorem reflects_answer (h : Idle nodes w s) (a : Answer) :
    Reflects gkSignals Anything (Valued nodes) (a.lang w) (a.code s) := by
  cases a with
  | value v _ => exact reflects_value h v
  | error e _ => exact reflects_error h.toShown e
  | trap => exact .inr ⟨.divideError, s, rfl, h.input, h.output, .inl ⟨rfl, rfl⟩⟩

theorem divide_code (a b : Int) (zero : GkError) (result : Int) :
    divide a b zero result = (quotient a b zero result idle).code := by
  rw [divide, quotient]
  split
  · rfl
  · split <;> rfl

theorem integerOp_code (op : BinOp) (a b : Int) : integerOp op.token a b = (op.arith a b idle).code := by
  cases op with
  | div => exact divide_code a b _ _
  | mod => exact divide_code a b _ _
  | _ => rfl

theorem strictOp_code (op : BinOp) (l r : Value) : strictOp op.token l r = (op.apply l r idle).code := by
  have hint := integerOp_code op
  cases op with
  | eq | neq => rfl
  | add =>
    cases l with
    | int a =>
      cases r with
      | int b => exact hint a b
      | _ => rfl
    | _ => rfl
  | _ =>
    cases l with
    | int a =>
      cases r with
      | int b => exact hint a b
      | _ => rfl
    | _ => rfl

theorem toInt_code (v : Value) : (match v with
    | .int v => return .int v
    | .str str =>
      match parseInt str with
      | some v => return .int v
      | none => evalError .intLiteral
    | _ => evalError .intArgumentType : GkM Value) = (toInt v idle).code := by
  cases v with
  | str str =>
    rw [toInt]
    cases hp : parseInt str <;> simp only [hp] <;> rfl
  | _ => rfl

theorem Valued.error_none {nodes : List Node} (v : Value) (w : World) (v' : Value) (s : Run)
    (h : Valued nodes v w v' s) :
    s.error = none := h.2.error

/-! ### The kinds of expressions -/

theorem length_exprTrees (args : List Expr) : (exprTrees args).length = args.length := by
  induction args with
  | nil => rfl
  | cons e args ih => rw [exprTrees, List.length_cons, List.length_cons, ih]

section
variable (hm : Agree nodes m ev)
include hm

theorem reflects_evalUnop {op : UnOp} (hop : n.op = op.token) (hkids : Holds (cell nodes) [e.toTree] n.children)
    (h : Idle nodes w s) :
    Reflects gkSignals Anything (Valued nodes) (exprStep m.expr m.stmt (.unop op e) w) (evalUnop ev n s) := by
  obtain ⟨c, _, hc, hkids, ⟨⟩⟩ := hkids.uncons
  rw [exprStep, evalUnop, hc]
  refine reflects_checked (hm.expr e c w s hkids h) Valued.error_none ?_
  rintro _ w' v s' ⟨rfl, h'⟩
  have hcode := reflects_answer h' (op.apply v idle)
  rw [hop]
  cases op with
  | not => exact hcode
  | neg => cases v <;> exact hcode

theorem reflects_evalBinop {op : BinOp} {l r : Expr} (hop : n.op = op.token)
    (hkids : Holds (cell nodes) [l.toTree, r.toTree] n.children) (h : Idle nodes w s) :
    Reflects gkSignals Anything (Valued nodes) (exprStep m.expr m.stmt (.binop op l r) w)
      (evalBinop ev n s) := by
  obtain ⟨c, _, hc, hkl, hkids⟩ := hkids.uncons
  obtain ⟨c', _, rfl, hkr, ⟨⟩⟩ := hkids.uncons
  -- the truth of the second operand
  have hright : ∀ {w' s'}, Idle nodes w' s' → Reflects gkSignals Anything (Valued nodes)
      ((do return .bool (isTruthy (← m.expr r)) : Lang Value) w')
      ((do let r ← ev (some c'); return .bool (isTruthy r) : GkM Value) s') := by
    intro w' s' h'
    refine (hm.expr r c' w' s' hkr h').bind (fun _ _ => .pure trivial) ?_
    rintro _ w'' v s'' ⟨rfl, h''⟩
    exact reflects_value h'' _
  have hpassive : Passive gkSignals Anything (do let r ← ev (some c'); return .bool (isTruthy r)) :=
    (hm.passive (some c')).bind fun _ _ => .pure trivial
  rw [evalBinop, hc, hop]
  cases op with
  | and =>
    rw [exprStep]
    refine (hm.expr l c w s hkl h).bind (fun _ _ => .ite hpassive (.pure trivial)) ?_
    rintro _ w' v s' ⟨rfl, h'⟩
    split
    · exact hright h'
    · exact reflects_value h' _
  | or =>
    rw [exprStep]
    refine (hm.expr l c w s hkl h).bind (fun _ _ => .ite (.pure trivial) hpassive) ?_
    rintro _ w' v s' ⟨rfl, h'⟩
    split
    · exact reflects_value h' _
    · exact hright h'
  | mul | div | mod | add | sub | eq | neq | lt | le | gt | ge =>
    rw [exprStep]
    · refine reflects_checked (hm.expr l c w s hkl h) Valued.error_none ?_
      rintro _ w' v s' ⟨rfl, h'⟩
      refine reflects_checked (hm.expr r c' w' s' hkr h') Valued.error_none ?_
      rintro _ w'' v' s'' ⟨rfl, h''⟩
      rw [strictOp_code]
      exact reflects_answer h'' _
    all_goals simp

theorem reflects_printLoop (hkids : Holds (cell nodes) (exprTrees args) cs) (h : Idle nodes w s) :
    Reflects gkSignals Anything (Valued nodes) (sayAll m.expr args w) (printLoop ev cs s) := by
  induction args generalizing cs w s with
  | nil =>
    cases hkids
    obtain ⟨s', hrun, h'⟩ := h.say (ascii "\n")
    rw [printLoop, bind_ok hrun]
    exact ⟨.none, s', rfl, rfl, h'⟩
  | cons e args ih =>
    rw [exprTrees] at hkids
    obtain ⟨c, cs, rfl, hc, hcs⟩ := hkids.uncons
    rw [sayAll, printLoop]
    refine reflects_checked (hm.expr e c w s hc h) Valued.error_none ?_
    rintro _ w' v s' ⟨rfl, h'⟩
    have hempty : (if cs = [] then [] else ascii " ") = if args.isEmpty then [] else ascii " " := by
      cases args with
      | nil =>
        cases hcs
        rfl
      | cons e' args =>
        obtain ⟨c', cs, rfl, -⟩ := hcs.uncons
        rfl
    obtain ⟨s'', hrun, h''⟩ := h'.say (valToStr v ++ if args.isEmpty then [] else ascii " ")
    rw [hempty, bind_ok hrun]
    exact ih hcs h''

theorem reflects_evalInput (hkids : Holds (cell nodes) (exprTrees args) n.children) (h : Idle nodes w s) :
    Reflects gkSignals Anything (Valued nodes) (sayAndAsk m.expr args w) (evalInput ev n s) := by
  cases args with
  | nil =>
    rw [sayAndAsk, evalInput, List.length_eq_zero_iff.mp hkids.length_eq.symm]
    exact reflects_ask h
  | cons e args =>
    rw [exprTrees] at hkids
    obtain ⟨c, cs, hcs, hc, -⟩ := hkids.uncons
    rw [sayAndAsk, evalInput, hcs]
    refine reflects_checked (hm.expr e c w s hc h) Valued.error_none ?_
    rintro _ w' v s' ⟨rfl, h'⟩
    obtain ⟨s'', hrun, h''⟩ := h'.say (valToStr v)
    rw [bind_ok hrun]
    exact reflects_ask h''

theorem reflects_evalIntCast (hkids : Holds (cell nodes) (exprTrees args) n.children) (h : Idle nodes w s) :
    Reflects gkSignals Anything (Valued nodes) (castToInt m.expr args w) (evalIntCast ev n s) := by
  have hlen : n.children.length = args.length := by rw [← hkids.length_eq, length_exprTrees]
  by_cases hone : args.length = 1
  · obtain ⟨e, rfl⟩ := List.length_eq_one_iff.mp hone
    rw [exprTrees] at hkids
    obtain ⟨c, cs, hcs, hc, -⟩ := hkids.uncons
    rw [castToInt, evalIntCast, if_neg (by rw [hlen, hone]; exact fun hne => hne rfl), hcs]
    refine reflects_checked (hm.expr e c w s hc h) Valued.error_none ?_
    rintro _ w' v s' ⟨rfl, h'⟩
    have hcode := reflects_answer h' (toInt v idle)
    rw [← toInt_code] at hcode
    exact hcode
  · rw [evalIntCast, if_pos (by rw [hlen]; exact hone)]
    have hstop : castToInt m.expr args = throw (.error .intArguments) := by
      rw [castToInt]
      rintro e rfl
      exact hone rfl
    rw [hstop]
    exact reflects_error h.toShown _

/-- All arguments, or nothing after an error. -/
theorem reflects_evalArgs (hkids : Holds (cell nodes) (exprTrees args) cs) (h : Idle nodes w s) :
    Reflects gkSignals (fun o => o = none) (fun vs w o s => o = some vs ∧ Idle nodes w s)
      (evalAll m.expr args w) (evalArgs ev cs s) := by
  induction args generalizing cs w s with
  | nil =>
    cases hkids
    exact ⟨some [], s, rfl, rfl, h⟩
  | cons e args ih =>
    rw [exprTrees] at hkids
    obtain ⟨c, cs, rfl, hc, hcs⟩ := hkids.uncons
    rw [evalAll, evalArgs]
    refine (hm.expr e c w s hc h).bind (fun v _ => ?_) ?_
    · refine passive_get fun s he => ?_
      rw [if_pos (Option.isSome_iff_ne_none.mpr he)]
      exact .pure rfl
    · rintro _ w' v s' ⟨rfl, h'⟩
      rw [bind_ok (get_apply s'), h'.error]
      refine (ih hcs h').bind ?_ ?_
      · rintro _ rfl
        exact .pure rfl
      · rintro vs w'' _ s'' ⟨rfl, h''⟩
        exact ⟨some (v :: vs), s'', rfl, rfl, h''⟩

end

/-! ### Calls -/

/-- What comes behind the body of a function. -/
def closeBody (result : Value) : GkM Value := do
  let s ← get
  update fun s => { s with returning := false }
  popScope
  return if s.returning then s.returnVal else result

theorem passive_leave (v : Value) : Passive gkSignals Anything (do leaveCall; return v) := by
  refine Passive.bind (passive_update (fun _ => rfl) (fun _ => rfl) fun _ => rfl) fun _ _ => ?_
  exact .pure trivial

theorem passive_close (result : Value) : Passive gkSignals Anything (do
    let result ← closeBody result
    leaveCall
    return result) := by
  have hclose : Passive gkSignals Anything (closeBody result) := by
    refine passive_get fun s _ => ?_
    refine Passive.bind (passive_update (fun _ => rfl) (fun _ => rfl) fun _ => rfl) fun _ _ => ?_
    refine Passive.bind (passive_update (fun _ => rfl) (fun _ => rfl) fun _ => rfl) fun _ _ => ?_
    exact .pure trivial
  exact hclose.bind fun v _ => passive_leave v

/-- The scope of a call is taken away with its flag. -/
theorem Shown.close (h : Shown nodes w s) {f : Frame} {fs : List Frame} (houter : w.outer = f :: fs)
    {returning : Bool}
    (hmarks : Marks s returning false false) (result : Value) :
    ∃ s', (do let result ← closeBody result; leaveCall; return result : GkM Value) s =
      .ok (if returning then s.returnVal else result) s' ∧ Idle nodes { w with top := f, outer := fs } s' := by
  have hdepth : s.callDepth = (f :: fs).length := by rw [h.depth, houter]
  have hrun : (do let result ← closeBody result; leaveCall; return result : GkM Value) s =
      .ok (if s.returning then s.returnVal else result) _ := rfl
  rw [hmarks.returning] at hrun
  refine ⟨_, hrun, { h with vars := ?_, depth := ?_, clean := ⟨rfl, hmarks.breaking, hmarks.continuing⟩ }⟩
  · show s.vars.rdropWhile (fun v => s.callDepth ≤ v.scope) = _
    rw [h.vars, houter, hdepth]
    exact pop_flat
  · show s.callDepth - 1 = fs.length
    rw [hdepth, List.length_cons]
    omega

/-- The first definition of this name, in both. -/
theorem find_defined {fs : List (List UInt8 × Func)} {ds : List FuncDef}
    (h : List.Forall₂ (Defined nodes) fs ds)
    (name : List UInt8) :
    (fs.lookup name = none ∧ findFunc ds name = none) ∨
    ∃ f d, fs.lookup name = some f ∧ findFunc ds name = some d ∧ Defined nodes (name, f) d := by
  induction h with
  | nil => exact .inl ⟨rfl, rfl⟩
  | @cons f d fs ds hd _ ih =>
    obtain ⟨g, f⟩ := f
    have hg : d.name = g := hd.name
    rw [List.lookup_cons, findFunc, List.find?_cons, hg]
    by_cases heq : g = name
    · subst heq
      simp only [beq_self_eq_true, decide_true]
      exact .inr ⟨f, d, rfl, rfl, hd⟩
    · have hbeq : (name == g) = false := by simpa using fun h => heq h.symm
      simp only [hbeq, heq, decide_false]
      exact ih

section
variable (hm : Agree nodes m ev)
include hm

/-- A body runs in a scope of its own, which is gone when it has ended. -/
theorem reflects_applyFunc {f : List UInt8 × Func} {d : FuncDef} (hd : Defined nodes f d)
    (h : Idle nodes w s) (vs : List Value) :
    Reflects gkSignals Anything (Valued nodes) (inScope m.stmt (f.2.params.zip vs) f.2.body w)
      (applyFunc ev d vs s) := by
  obtain ⟨b, hbody, hb⟩ := hd.body
  rw [inScope, applyFunc, hd.params]
  -- the new scope
  have henter : Idle nodes { w with top := .empty, outer := w.top :: w.outer } (final (enterCall s)) :=
    { h with
      vars := by
        show s.vars = _
        rw [h.vars, flat]
        exact (List.append_nil _).symm
      depth := by
        show s.callDepth + 1 = _
        rw [h.depth]
        rfl
      clean := ⟨h.clean.1, h.clean.2, h.clean.3⟩ }
  have hin : (final (enterCall s)).callDepth = w.outer.length + 1 := henter.depth
  have hstart : enterCall s = .ok () (final (enterCall s)) := rfl
  rw [bind_ok hstart]
  generalize final (enterCall s) = s₁ at henter hin ⊢
  refine (reflects_assignAll henter _).bind_of_ok ?_ ?_
  · rintro _ rfl
    exact passive_leave _
  rintro _ w₂ _ s₂ - hbind ⟨rfl, h₂⟩
  have hd₂ := (stepped_bindParams _ henter.error).1.ok _ _ hbind
  -- the body
  have hrest : (do
      let result ← runBody ev d
      leaveCall
      return result : GkM Value) = ev (some b) >>= fun result => do
        let result ← closeBody result
        leaveCall
        return result := by
    rw [runBody, hbody, bind_assoc]
    rfl
  simp only [if_true]
  rw [hrest]
  refine (hm.stmt f.2.body false b w₂ s₂ hd.jumps hb h₂).bind_of_ok (fun v _ => passive_close v) ?_
  rintro e w₃ v s₃ - hrun ⟨h₃, hend⟩
  have hd₃ := (hm.steps (some b) s₂ (by omega)).ok _ _ hrun
  -- its end
  obtain ⟨f', fs, houter⟩ : ∃ f' fs, w₃.outer = f' :: fs := by
    refine List.exists_cons_of_length_pos ?_
    have := h₃.depth
    omega
  have hleft : (modify fun w => { w with top := w.outer.headD .empty, outer := w.outer.tail } : Lang Unit) w₃ =
      .ok () { w₃ with top := f', outer := fs } := by
    show EStateM.Result.ok () { w₃ with top := w₃.outer.headD .empty, outer := w₃.outer.tail } = _
    rw [houter]
    rfl
  rw [bind_ok hleft]
  cases e with
  | normal x =>
    obtain ⟨rfl, hclean⟩ := hend
    obtain ⟨s₄, hclose, h₄⟩ := h₃.close houter hclean v
    exact ⟨v, s₄, hclose, rfl, h₄⟩
  | ret x =>
    obtain ⟨hmarks, rfl⟩ := hend
    obtain ⟨s₄, hclose, h₄⟩ := h₃.close houter hmarks v
    exact ⟨s₃.returnVal, s₄, hclose, rfl, h₄⟩
  | brk => exact absurd hend.2.2 (by decide)
  | cont => exact absurd hend.2.2 (by decide)

theorem reflects_evalCall {name : List UInt8} (hname : n.strVal = name)
    (hkids : Holds (cell nodes) (exprTrees args) n.children)
    (h : Idle nodes w s) :
    Reflects gkSignals Anything (Valued nodes) (callFunc m.expr m.stmt name args w) (evalCall ev n s) := by
  have hlen : n.children.length = args.length := by rw [← hkids.length_eq, length_exprTrees]
  rw [callFunc, evalCall, bind_ok (get_apply w), bind_ok (get_apply s), hname]
  obtain ⟨hnone, hnone'⟩ | ⟨f, d, hf, hd, hdef⟩ := find_defined h.funcs name
  · simp only [hnone, hnone']
    exact reflects_error h.toShown _
  · have hparams : d.params.length = f.params.length := congrArg List.length hdef.params
    simp only [hf, hd, hlen, hparams, h.depth, Int.ofNat_le]
    by_cases hcount : args.length ≠ f.params.length
    · rw [if_pos hcount, if_pos hcount]
      exact reflects_error h.toShown _
    · rw [if_neg hcount, if_neg hcount]
      by_cases hdepth : maxCallDepth ≤ w.outer.length
      · rw [if_pos hdepth, if_pos hdepth]
        exact reflects_error h.toShown _
      · rw [if_neg hdepth, if_neg hdepth]
        refine (reflects_evalArgs hm hkids h).bind ?_ ?_
        · rintro _ rfl
          exact .pure trivial
        · rintro vs w' _ s' ⟨rfl, h'⟩
          exact reflects_applyFunc hm hdef h' vs

/-- The node of a call, which the name decides. -/
theorem reflects_call {name : List UInt8} {fuel : Nat} (htype : n.type = callType name)
    (hname : n.strVal = name)
    (hkids : Holds (cell nodes) (exprTrees args) n.children) (h : Idle nodes w s) :
    Reflects gkSignals Anything (Valued nodes) (callStep m.expr m.stmt name args w) (evalNode ev fuel n s) := by
  rw [callStep, evalNode, htype]
  obtain ht | ht | ht | ht | ht := callType_cases name
  · rw [ht]
    exact reflects_printLoop hm hkids h
  · rw [ht]
    exact reflects_error h.toShown _
  · rw [ht]
    exact reflects_evalInput hm hkids h
  · rw [ht]
    exact reflects_evalIntCast hm hkids h
  · rw [ht]
    exact reflects_evalCall hm hname hkids h

/-- What a node of an expression does. -/
theorem reflects_exprStep {a : Label} {ts : List (Lib.Tree Label)} {fuel : Nat}
    (ht : e.toTree = .node a ts) (hn : n.label = a)
    (hkids : Holds (cell nodes) ts n.children) (h : Idle nodes w s) :
    Reflects gkSignals Anything (Valued nodes) (exprStep m.expr m.stmt e w) (evalNode ev fuel n s) := by
  cases e with
  | int v =>
    cases ht
    have htype : n.type = .int := congrArg Label.type hn
    have hval : n.intVal = v := congrArg Label.intVal hn
    rw [exprStep, evalNode, htype, hval]
    exact reflects_value h _
  | str str =>
    cases ht
    have htype : n.type = .str := congrArg Label.type hn
    have hval : n.strVal = str := congrArg Label.strVal hn
    rw [exprStep, evalNode, htype, hval]
    exact reflects_value h _
  | bool b =>
    cases ht
    have htype : n.type = .bool := congrArg Label.type hn
    have hval : n.intVal = if b then 1 else 0 := congrArg Label.intVal hn
    have hb : decide (n.intVal ≠ 0) = b := by
      rw [hval]
      cases b <;> rfl
    rw [exprStep, evalNode, htype]
    have hv := reflects_value h (.bool b)
    rw [← hb] at hv ⊢
    exact hv
  | var name =>
    cases ht
    have htype : n.type = .var := congrArg Label.type hn
    have hname : n.strVal = name := congrArg Label.strVal hn
    have hfind := h.find name
    rw [exprStep, evalNode, htype]
    show Reflects _ _ _ _ (evalVar n s)
    rw [evalVar, bind_ok (get_apply w), bind_ok (get_apply s), hname]
    cases hv : findVar s.vars name with
    | none =>
      rw [hv] at hfind
      simp only [← hfind, Option.map_none]
      exact reflects_error h.toShown _
    | some u =>
      rw [hv] at hfind
      simp only [← hfind, Option.map_some]
      exact reflects_value h _
  | unop op e =>
    cases ht
    have htype : n.type = .unop := congrArg Label.type hn
    rw [evalNode, htype]
    exact reflects_evalUnop hm (congrArg Label.op hn) hkids h
  | binop op l r =>
    cases ht
    have htype : n.type = .binop := congrArg Label.type hn
    rw [evalNode, htype]
    exact reflects_evalBinop hm (congrArg Label.op hn) hkids h
  | call name args =>
    rw [Expr.toTree] at ht
    cases ht
    rw [exprStep]
    exact reflects_call hm (congrArg Label.type hn) (congrArg Label.strVal hn) hkids h

end

end GeckoOS.Gk
