import GeckoOS.Gk.Reference
import GeckoOS.Gk.Lockstep

/-! The interpreter gives every expression its meaning. -/
namespace GeckoOS.Gk
open Lib

def Flow.errorOf : Flow → Option GkError
  | .error e => some e
  | _ => none

/-- The state after a task that has ended so: the flags tell the flow, and all
variables are of the scope 0. -/
structure Shows (nodes : List Node) (fl : Flow) (σ : Store) (s : Run) : Prop where
  nodes_eq : s.nodes = nodes
  vars : s.vars = σ.vars.map fun x => ⟨x.1, x.2, 0⟩
  distinct : (σ.vars.map Prod.fst).Nodup
  funcs : s.funcs = []
  depth : s.callDepth = 0
  input : s.input = σ.input
  output : s.output = σ.output
  error : s.error = fl.errorOf
  returning : s.returning = decide (fl = .ret)
  breaking : s.breaking = decide (fl = .brk)
  continuing : s.continuing = decide (fl = .cont)

variable {nodes : List Node} {fl : Flow} {σ σ' : Store} {s s' : Run} {name : List UInt8} {val v : Value}
  {e : GkError}

/-! The variables. -/

private theorem find_reverse {l : List (List UInt8 × Value)} (hl : (l.map Prod.fst).Nodup) :
    findVar (l.map fun x => ⟨x.1, x.2, 0⟩) name = (l.lookup name).map fun v => ⟨name, v, 0⟩ := by
  induction l with
  | nil => rfl
  | cons x l ih =>
    obtain ⟨hx, hl⟩ := List.nodup_cons.mp hl
    have ih := ih hl
    rw [findVar] at ih ⊢
    rw [List.map_cons, List.reverse_cons, List.find?_append, ih, List.lookup_cons]
    by_cases hname : x.1 = name
    · have hnone : l.lookup name = none := by
        rw [List.lookup_eq_none_iff]
        intro p hp
        have hne : p.1 ≠ name := fun h => hx (hname ▸ h ▸ List.mem_map_of_mem hp)
        simpa using hne.symm
      simp [hname, hnone]
    · have hbeq : (name == x.1) = false := by simpa using fun h => hname h.symm
      simp [hname, hbeq]

theorem Shows.find (h : Shows nodes fl σ s) (name : List UInt8) :
    findVar s.vars name = (σ.vars.lookup name).map fun v => ⟨name, v, 0⟩ := by
  rw [h.vars]
  exact find_reverse h.distinct

/-- In the scope 0 nothing ends the search. -/
private theorem setInScope_zero {l : List Var} (hscope : ∀ w ∈ l, w.scope = 0) (hl : (l.map Var.name).Nodup) :
    setInScope 0 name val l =
      if name ∈ l.map Var.name then some
        (l.map fun w => if w.name = name then { w with val := val } else w) else none := by
  induction l with
  | nil => rfl
  | cons w l ih =>
    obtain ⟨hw, hl⟩ := List.nodup_cons.mp hl
    have hzero : ¬ w.scope < 0 := by
      rw [hscope w List.mem_cons_self]
      decide
    rw [setInScope, if_neg hzero, ih (fun u hu => hscope u (List.mem_cons_of_mem _ hu)) hl]
    by_cases hname : w.name = name
    · have hrest : (l.map fun u => if u.name = name then { u with val := val } else u) = l := by
        refine (List.map_congr_left fun u hu => if_neg fun h => hw ?_).trans (List.map_id l)
        rw [hname, ← h]
        exact List.mem_map_of_mem hu
      simp [hname, hrest]
    · have hne : ¬ name = w.name := fun h => hname h.symm
      by_cases hmem : name ∈ l.map Var.name <;> simp [hname, hne, hmem]

theorem Shows.set (h : Shows nodes .normal σ s) (name : List UInt8) (val : Value) :
    (∃ σ' s', σ.set name val = some σ' ∧ setVar name val s = .ok true s' ∧ Shows nodes .normal σ' s') ∨
    (∃ s', σ.set name val = none ∧ setVar name val s = .ok false s' ∧
      Shows nodes (.error .tooManyVariables) σ s') := by
  have hnames : s.vars.map Var.name = σ.vars.map Prod.fst := by
    rw [h.vars, List.map_map]
    rfl
  have hfind : setInScope s.callDepth name val s.vars.reverse =
      if name ∈ σ.vars.map Prod.fst then
        some (s.vars.map fun w => if w.name = name then { w with val := val } else w).reverse else none := by
    rw [h.depth, setInScope_zero]
    · rw [List.map_reverse, List.map_reverse, hnames]
      simp only [List.mem_reverse]
    · intro w hw
      rw [h.vars] at hw
      obtain ⟨x, -, rfl⟩ := List.mem_map.mp (List.mem_reverse.mp hw)
      rfl
    · rw [List.map_reverse, hnames]
      exact List.nodup_reverse.mpr h.distinct
  have hcases := setVar_cases name val s
  rw [hfind] at hcases
  have hlen : s.vars.length = σ.vars.length := by rw [h.vars, List.length_map]
  unfold Store.set
  by_cases hmem : name ∈ σ.vars.map Prod.fst
  · simp only [if_pos hmem] at hcases ⊢
    obtain ⟨_, ⟨⟩, hrun⟩ | ⟨⟨⟩, -⟩ | ⟨⟨⟩, -⟩ := hcases
    refine .inl ⟨_, _, rfl, hrun, { h with vars := ?_, distinct := ?_ }⟩
    · rw [List.reverse_reverse, h.vars, List.map_map, List.map_map]
      refine List.map_congr_left fun x _ => ?_
      by_cases hx : x.1 = name <;> simp [hx]
    · rw [List.map_map]
      refine (List.map_congr_left fun x _ => ?_) ▸ h.distinct
      by_cases hx : x.1 = name <;> simp [hx]
  · simp only [if_neg hmem] at hcases ⊢
    obtain ⟨_, ⟨⟩, -⟩ | ⟨-, hroom, hrun⟩ | ⟨-, hfull, hrun⟩ := hcases
    · rw [if_pos (hlen ▸ hroom)]
      refine .inl ⟨_, _, rfl, hrun, { h with vars := ?_, distinct := ?_ }⟩
      · simp [h.vars, h.depth]
      · rw [List.map_append]
        exact h.distinct.append (List.nodup_singleton _) (List.disjoint_singleton.mpr hmem)
    · rw [if_neg (by omega)]
      exact .inr ⟨_, rfl, hrun, { h with error := rfl }⟩

/-! Answers and outcomes. -/

/-- The outcome of an expression that has this answer. -/
def Means (nodes : List Node) : Answer → EStateM.Result Stop Run Value → Prop
  | .value v σ, r => ∃ s', r = .ok v s' ∧ Shows nodes .normal σ s'
  | .error e σ, r => ∃ v s', r = .ok v s' ∧ Shows nodes (.error e) σ s'
  | .trap, r => ∃ s', r = .error .divideError s'

/-- After an error the program does nothing. -/
def Inert (p : GkM Value) : Prop := ∀ s, s.error ≠ none → ∃ v, p s = .ok v s

theorem inert_unlessError (rest : GkM Value) : Inert (unlessError rest) := by
  intro s he
  obtain ⟨e, he⟩ := Option.ne_none_iff_exists'.mp he
  refine ⟨.none, ?_⟩
  rw [unlessError, bind_ok (get_apply s), he]
  rfl

theorem inert_eval (fuel : Nat) (i : Option Nat) : Inert (eval fuel i) := by
  cases fuel with
  | zero =>
    cases i with
    | none => exact fun s _ => ⟨.none, rfl⟩
    | some i => exact inert_unlessError _
  | succ fuel =>
    cases i with
    | none => exact fun s _ => ⟨.none, rfl⟩
    | some i => exact inert_unlessError _

theorem inert_pure (v : Value) : Inert (pure v) := fun _ _ => ⟨v, rfl⟩

theorem Inert.bind {p : GkM Value} {q : Value → GkM Value} (hp : Inert p) (hq : ∀ v, Inert (q v)) :
    Inert (p >>= q) := by
  intro s he
  obtain ⟨v, hv⟩ := hp s he
  obtain ⟨w, hw⟩ := hq v s he
  exact ⟨w, by rw [bind_ok hv, hw]⟩

theorem Inert.ite {c : Prop} [Decidable c] {p q : GkM Value} (hp : Inert p) (hq : Inert q) :
    Inert (if c then p else q) := by
  split
  · exact hp
  · exact hq

namespace Means
variable {a : Answer} {p : GkM Value} {q : Value → GkM Value} {k : Value → Store → Answer}

theorem value (v : Value) (h : Shows nodes .normal σ s) : Means nodes (.value v σ) (.ok v s) := ⟨s, rfl, h⟩

theorem evalError (e : GkError) (h : Shows nodes .normal σ s) : Means nodes (.error e σ) (evalError e s) :=
  ⟨.none, _, rfl, { h with error := rfl }⟩

protected theorem bind (hp : Means nodes a (p s)) (hq : ∀ v, Inert (q v))
    (hk : ∀ v σ' s', Shows nodes .normal σ' s' → Means nodes (k v σ') (q v s')) :
      Means nodes (a.bind k) ((p >>= q) s) := by
  cases a with
  | value v σ' =>
    obtain ⟨s', hrun, h⟩ := hp
    rw [bind_ok hrun]
    exact hk v σ' s' h
  | error e σ' =>
    obtain ⟨v, s', hrun, h⟩ := hp
    rw [bind_ok hrun]
    obtain ⟨w, hw⟩ := hq v s' (by rw [h.error]; exact Option.some_ne_none e)
    exact ⟨w, s', hw, h⟩
  | trap =>
    obtain ⟨s', hrun⟩ := hp
    rw [bind_error hrun]
    exact ⟨s', rfl⟩

theorem stopOf_ne {r : EStateM.Result Stop Run Value} (h : Means nodes a r) : stopOf r ≠ some .outOfFuel := by
  cases a with
  | value v σ' =>
    obtain ⟨s', rfl, -⟩ := h
    simp [stopOf]
  | error x σ' =>
    obtain ⟨v, s', rfl, -⟩ := h
    simp [stopOf]
  | trap =>
    obtain ⟨s', rfl⟩ := h
    simp [stopOf]

/-- The rest begins with a look at the error. -/
theorem checked (hp : Means nodes a (p s))
    (hk : ∀ v σ' s', Shows nodes .normal σ' s' → Means nodes (k v σ') (q v s')) :
    Means nodes (a.bind k) ((do let v ← p; unlessError (q v) : GkM Value) s) := by
  refine hp.bind (fun _ => inert_unlessError _) fun v σ' s' h => ?_
  have he : s'.error = none := h.error
  rw [unlessError, bind_ok (get_apply s'), he]
  exact hk v σ' s' h

end Means

/-- This expression at any place in the program, with this fuel. -/
def MeansAt (nodes : List Node) (fuel : Nat) (e : Expr) : Prop := ∀ i σ s, Holds (cell nodes) [e.toTree] [i] →
  Shows nodes .normal σ s → Means nodes (e.denote σ) (eval fuel (some i) s)

theorem Shows.print (h : Shows nodes .normal σ s) (text : List UInt8) :
    ∃ s', gkPrint text s = .ok () s' ∧ Shows nodes .normal (σ.print text) s' :=
  ⟨_, rfl, { h with output := by rw [Store.print, ← h.output] }⟩

theorem means_readLine (h : Shows nodes .normal σ s) : Means nodes σ.readLine (readLine s) := by
  rw [readLine, bind_ok (get_apply s), h.input]
  exact ⟨_, rfl, { h with input := by rw [← h.input], output := by rw [← h.output] }⟩

theorem means_divide (a b : Int) (zero : GkError) (result : Int) (h : Shows nodes .normal σ s) :
    Means nodes (quotient a b zero result σ) (divide a b zero result s) := by
  rw [quotient, divide]
  split
  · exact .evalError _ h
  · split
    · exact ⟨s, rfl⟩
    · exact .value _ h

theorem means_integerOp (op : BinOp) (a b : Int) (h : Shows nodes .normal σ s) :
    Means nodes (op.arith a b σ) (integerOp op.token a b s) := by
  cases op with
  | div => exact means_divide a b _ _ h
  | mod => exact means_divide a b _ _ h
  | mul | add | sub | lt | le | gt | ge => exact .value _ h
  | eq | neq | and | or => exact .evalError _ h

theorem means_strictOp (op : BinOp) (l r : Value) (h : Shows nodes .normal σ s) :
    Means nodes (op.apply l r σ) (strictOp op.token l r s) := by
  have hint := fun a b => means_integerOp op a b h
  cases op with
  | eq | neq => exact .value _ h
  | add =>
    cases l with
    | str s => exact .value _ h
    | int a =>
      cases r with
      | int b => exact hint a b
      | str | bool | none => exact .evalError _ h
    | bool | none => exact .evalError _ h
  | mul | div | mod | sub | lt | le | gt | ge | and | or =>
    cases l with
    | int a =>
      cases r with
      | int b => exact hint a b
      | str | bool | none => exact .evalError _ h
    | str | bool | none => exact .evalError _ h

theorem means_toInt (v : Value) (h : Shows nodes .normal σ s) :
    Means nodes (toInt v σ) ((match v with
      | .int v => return .int v
      | .str str =>
        match parseInt str with
        | some v => return .int v
        | none => evalError .intLiteral
      | _ => evalError .intArgumentType : GkM Value) s) := by
  cases v with
  | int v => exact .value _ h
  | str str =>
    rw [toInt]
    cases hp : parseInt str with
    | some v =>
      simp only [hp]
      exact .value _ h
    | none =>
      simp only [hp]
      exact .evalError _ h
  | bool b => exact .evalError _ h
  | none => exact .evalError _ h

section
variable {fuel : Nat} {n : Node} {args : List Expr}

theorem means_evalVar (h : Shows nodes .normal σ s) :
    Means nodes ((Expr.var n.strVal).denote σ) (evalVar n s) := by
  rw [Expr.denote, evalVar, bind_ok (get_apply s), h.find]
  cases σ.vars.lookup n.strVal with
  | some v => exact .value _ h
  | none => exact .evalError _ h

theorem means_evalUnop {op : UnOp} {e : Expr} (he : MeansAt nodes fuel e) (hop : n.op = op.token)
    (hkids : Holds (cell nodes) [e.toTree] n.children) (h : Shows nodes .normal σ s) :
    Means nodes ((Expr.unop op e).denote σ) (evalUnop (eval fuel) n s) := by
  obtain ⟨c, _, hc, hkids, ⟨⟩⟩ := hkids.uncons
  rw [Expr.denote, evalUnop, hc]
  refine (he c σ s hkids h).checked fun v σ' s' h' => ?_
  rw [hop]
  cases op with
  | not => exact .value _ h'
  | neg =>
    cases v with
    | int a => exact .value _ h'
    | str | bool | none => exact .evalError _ h'

theorem means_evalBinop {op : BinOp} {l r : Expr} (hl : MeansAt nodes fuel l) (hr : MeansAt nodes fuel r)
    (hop : n.op = op.token) (hkids : Holds (cell nodes) [l.toTree, r.toTree] n.children)
    (h : Shows nodes .normal σ s) :
    Means nodes ((Expr.binop op l r).denote σ) (evalBinop (eval fuel) n s) := by
  obtain ⟨c, _, hc, hkl, hkids⟩ := hkids.uncons
  obtain ⟨c', _, rfl, hkr, ⟨⟩⟩ := hkids.uncons
  have hright : ∀ σ' s', Shows nodes .normal σ' s' →
    Means nodes ((r.denote σ').bind fun w σ => .value (.bool (isTruthy w)) σ)
      ((do let r ← eval fuel (some c'); return .bool (isTruthy r) : GkM Value) s') := fun σ' s' h' =>
    (hr c' σ' s' hkr h').bind (fun _ => inert_pure _) fun _ _ _ h'' => .value _ h''
  have hinert : Inert (do let r ← eval fuel (some c'); return .bool (isTruthy r)) :=
    (inert_eval _ _).bind fun _ => inert_pure _
  rw [evalBinop, hc, hop]
  cases op with
  | and =>
    rw [Expr.denote]
    refine (hl c σ s hkl h).bind (fun _ => .ite hinert (inert_pure _)) fun v σ' s' h' => ?_
    split
    · exact hright σ' s' h'
    · exact .value _ h'
  | or =>
    rw [Expr.denote]
    refine (hl c σ s hkl h).bind (fun _ => .ite (inert_pure _) hinert) fun v σ' s' h' => ?_
    split
    · exact .value _ h'
    · exact hright σ' s' h'
  | mul | div | mod | add | sub | eq | neq | lt | le | gt | ge =>
    rw [Expr.denote]
    · exact (hl c σ s hkl h).checked fun v σ' s' h' => (hr c' σ' s' hkr h').checked fun w σ'' s'' h'' =>
        means_strictOp _ v w h''
    · simp
    · simp

theorem means_printLoop (hargs : ∀ e ∈ args, MeansAt nodes fuel e) {cs : List Nat}
    (hkids : Holds (cell nodes) (exprTrees args) cs)
    (h : Shows nodes .normal σ s) : Means nodes (denotePrint args σ) (printLoop (eval fuel) cs s) := by
  induction args generalizing cs σ s with
  | nil =>
    obtain ⟨⟩ := hkids
    obtain ⟨s', hrun, h'⟩ := h.print (ascii "\n")
    rw [denotePrint, printLoop, bind_ok hrun]
    exact .value _ h'
  | cons e args ih =>
    obtain ⟨he, hargs⟩ := List.forall_mem_cons.mp hargs
    rw [exprTrees] at hkids
    obtain ⟨c, cs, rfl, hc, hkids⟩ := hkids.uncons
    have hlast : cs = [] ↔ args.isEmpty = true := by
      cases args with
      | nil =>
        obtain ⟨⟩ := hkids
        simp
      | cons e' args =>
        obtain ⟨c', cs', rfl, -⟩ := Holds.uncons hkids
        simp
    rw [denotePrint, printLoop]
    refine (he c σ s hc h).checked fun v σ' s' h' => ?_
    obtain ⟨s'', hrun, h''⟩ := h'.print (valToStr v ++ if args.isEmpty then [] else ascii " ")
    simp only [hlast]
    rw [bind_ok hrun]
    exact ih hargs hkids h''

theorem means_evalInput (hargs : ∀ e ∈ args, MeansAt nodes fuel e)
    (hkids : Holds (cell nodes) (exprTrees args) n.children)
    (h : Shows nodes .normal σ s) : Means nodes (denoteInput args σ) (evalInput (eval fuel) n s) := by
  unfold evalInput
  cases args with
  | nil =>
    generalize n.children = cs at hkids
    obtain ⟨⟩ := hkids
    exact means_readLine h
  | cons e args =>
    rw [exprTrees] at hkids
    obtain ⟨c, cs, hcs, hc, -⟩ := hkids.uncons
    rw [hcs, denoteInput]
    refine (hargs e List.mem_cons_self c σ s hc h).checked fun v σ' s' h' => ?_
    obtain ⟨s'', hrun, h''⟩ := h'.print (valToStr v)
    rw [bind_ok hrun]
    exact means_readLine h''

theorem means_evalIntCast (hargs : ∀ e ∈ args, MeansAt nodes fuel e)
    (hkids : Holds (cell nodes) (exprTrees args) n.children)
    (h : Shows nodes .normal σ s) : Means nodes (denoteInt args σ) (evalIntCast (eval fuel) n s) := by
  have hlen := hkids.length_eq
  rw [evalIntCast]
  cases args with
  | nil =>
    rw [if_pos (by rw [← hlen]; exact Nat.zero_ne_one)]
    exact .evalError _ h
  | cons e args =>
    rw [exprTrees] at hkids hlen
    obtain ⟨c, cs, hcs, hc, hkids⟩ := hkids.uncons
    cases args with
    | nil =>
      rw [if_neg (by rw [← hlen]; simp [exprTrees]), hcs]
      exact (hargs e List.mem_cons_self c σ s hc h).checked fun v σ' s' h' => means_toInt v h'
    | cons e' args =>
      rw [if_pos (by rw [← hlen]; simp [exprTrees])]
      exact .evalError _ h

/-- A call of a name for which there is no function. -/
theorem means_evalCall (h : Shows nodes .normal σ s) :
    Means nodes (.error (.undefinedFunction n.strVal) σ) (evalCall (eval fuel) n s) := by
  rw [evalCall, bind_ok (get_apply s), h.funcs]
  exact .evalError _ h

theorem callType_cases (name : List UInt8) : callType name = .print ∨ callType name = .range ∨
    callType name = .input ∨
    callType name = .intCast ∨ callType name = .call := by
  unfold callType
  repeat' split
  all_goals simp

/-- The node of a call, which the name decides. -/
theorem means_call (hargs : ∀ e ∈ args, MeansAt nodes fuel e) (htype : n.type = callType name)
    (hname : n.strVal = name)
    (hkids : Holds (cell nodes) (exprTrees args) n.children) (h : Shows nodes .normal σ s) :
    Means nodes ((Expr.call name args).denote σ) (evalNode (eval fuel) fuel n s) := by
  rw [Expr.denote, evalNode, htype]
  subst hname
  obtain ht | ht | ht | ht | ht := callType_cases n.strVal
  · rw [ht]
    exact means_printLoop hargs hkids h
  · rw [ht]
    exact .evalError _ h
  · rw [ht]
    exact means_evalInput hargs hkids h
  · rw [ht]
    exact means_evalIntCast hargs hkids h
  · rw [ht]
    exact means_evalCall h

end

/-- The node at the root of a tree. -/
theorem node_of_holds {a : Label} {ts : List (Lib.Tree Label)} {i : Nat}
    (h : Holds (cell nodes) [.node a ts] [i]) :
    ∃ n, nodes[i]? = some n ∧ n.label = a ∧ Holds (cell nodes) ts n.children := by
  cases h with
  | cons hn hkids _ =>
    obtain ⟨n, hget, heq⟩ := Option.map_eq_some_iff.mp hn
    obtain ⟨hlabel, rfl⟩ := Prod.mk.inj heq
    exact ⟨n, hget, hlabel, hkids⟩

theorem eval_node {i fuel : Nat} {n : Node} (hn : s.nodes[i]? = some n) (he : s.error = none) :
    eval (fuel + 1) (some i) s = evalNode (eval fuel) fuel n s := by
  rw [eval, evalAt, unlessError, bind_ok (get_apply s), he]
  simp only [Option.isSome_none, Bool.false_eq_true, if_false]
  rw [bind_ok (get_apply s), hn]

/-- The rest of the step from the children of a node to the node. -/
private theorem meansAt_node {fuel : Nat} {e : Expr} {a : Label} {ts : List (Lib.Tree Label)}
    (ht : e.toTree = .node a ts)
    (hnode : ∀ n σ s, n.label = a → Holds (cell nodes) ts n.children → Shows nodes .normal σ s →
      Means nodes (e.denote σ) (evalNode (eval fuel) fuel n s)) : MeansAt nodes (fuel + 1) e := by
  intro i σ s hi h
  rw [ht] at hi
  obtain ⟨n, hn, hlabel, hkids⟩ := node_of_holds hi
  rw [eval_node (h.nodes_eq.symm ▸ hn) h.error]
  exact hnode n σ s hlabel hkids h

/-- With more fuel nothing changes. -/
theorem MeansAt.mono {f g : Nat} {e : Expr} (h : MeansAt nodes f e) (hle : f ≤ g) : MeansAt nodes g e := by
  intro i σ s hi hs
  have hmean := h i σ s hi hs
  rw [eval_mono hle (Int.le_of_eq hs.depth.symm) hmean.stopOf_ne]
  exact hmean

mutual
/-- With enough fuel the evaluation of an expression comes to what it means. -/
theorem meansAt_expr (nodes : List Node) : (e : Expr) → ∃ fuel, MeansAt nodes fuel e
  | .int v => ⟨1, meansAt_node (by rw [Expr.toTree]) fun n σ s hn _ h => by
    have ht : n.type = .int := congrArg Label.type hn
    have hv : n.intVal = v := congrArg Label.intVal hn
    rw [Expr.denote, evalNode, ht, ← hv]
    exact .value _ h⟩
  | .str str => ⟨1, meansAt_node (by rw [Expr.toTree]) fun n σ s hn _ h => by
    have ht : n.type = .str := congrArg Label.type hn
    have hv : n.strVal = str := congrArg Label.strVal hn
    rw [Expr.denote, evalNode, ht, ← hv]
    exact .value _ h⟩
  | .bool b => ⟨1, meansAt_node (by rw [Expr.toTree]) fun n σ s hn _ h => by
    have ht : n.type = .bool := congrArg Label.type hn
    have hv : n.intVal = if b then 1 else 0 := congrArg Label.intVal hn
    rw [Expr.denote, evalNode, ht, hv]
    cases b <;> exact .value _ h⟩
  | .var name => ⟨1, meansAt_node (by rw [Expr.toTree]) fun n σ s hn _ h => by
    have ht : n.type = .var := congrArg Label.type hn
    have hv : n.strVal = name := congrArg Label.strVal hn
    rw [evalNode, ht, ← hv]
    exact means_evalVar h⟩
  | .unop op e => by
    obtain ⟨f, hf⟩ := meansAt_expr nodes e
    refine ⟨f + 1, meansAt_node (by rw [Expr.toTree]) fun n σ s hn hkids h => ?_⟩
    have ht : n.type = .unop := congrArg Label.type hn
    rw [evalNode, ht]
    exact means_evalUnop hf (congrArg Label.op hn) hkids h
  | .binop op l r => by
    obtain ⟨f, hf⟩ := meansAt_expr nodes l
    obtain ⟨g, hg⟩ := meansAt_expr nodes r
    refine ⟨max f g + 1, meansAt_node (by rw [Expr.toTree]) fun n σ s hn hkids h => ?_⟩
    have ht : n.type = .binop := congrArg Label.type hn
    rw [evalNode, ht]
    exact means_evalBinop (hf.mono (Nat.le_max_left _ _)) (hg.mono (Nat.le_max_right _ _))
      (congrArg Label.op hn) hkids h
  | .call name args => by
    obtain ⟨f, hf⟩ := meansAt_args nodes args
    refine ⟨f + 1, meansAt_node (by rw [Expr.toTree]) fun n σ s hn hkids h => ?_⟩
    exact means_call hf (congrArg Label.type hn) (congrArg Label.strVal hn) hkids h

theorem meansAt_args (nodes : List Node) : (es : List Expr) → ∃ fuel, ∀ e ∈ es, MeansAt nodes fuel e
  | [] => ⟨0, by simp⟩
  | e :: es => by
    obtain ⟨f, hf⟩ := meansAt_expr nodes e
    obtain ⟨g, hg⟩ := meansAt_args nodes es
    refine ⟨max f g, List.forall_mem_cons.mpr ⟨hf.mono (Nat.le_max_left _ _), fun e' he' => ?_⟩⟩
    exact (hg e' he').mono (Nat.le_max_right _ _)
end

end GeckoOS.Gk
