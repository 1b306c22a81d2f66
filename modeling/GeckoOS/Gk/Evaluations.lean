import GeckoOS.Lib.Queries
import GeckoOS.Gk.Refinement

/-! The evaluations that an evaluation leads to. -/
namespace GeckoOS.Gk
open Lib

instance : Nontrivial Stop := ⟨.failed, .overrun, by decide⟩

/-- What a node that is neither a definition, nor a jump, nor a loop, nor a call
leaves as it is. -/
structure Plain (s s' : Run) : Prop where
  nodes : s'.nodes = s.nodes
  funcs : s'.funcs = s.funcs
  returning : s'.returning = s.returning
  breaking : s'.breaking = s.breaking
  continuing : s'.continuing = s.continuing
  returnVal : s'.returnVal = s.returnVal
  error : s'.error = none → s.error = none

theorem Plain.refl (s : Run) : Plain s s := ⟨rfl, rfl, rfl, rfl, rfl, rfl, id⟩

theorem Plain.trans {s s' s'' : Run} (h : Plain s s') (h' : Plain s' s'') : Plain s s'' :=
  ⟨h'.nodes.trans h.nodes, h'.funcs.trans h.funcs, h'.returning.trans h.returning, h'.breaking.trans h.breaking,
    h'.continuing.trans h.continuing, h'.returnVal.trans h.returnVal, fun he => h.error (h'.error he)⟩

section
variable {X : Option Nat → Prop} {A : Run → Run → Prop} {D : Stop → Prop} {α : Type} {n : Node}
  (hA : ∀ s s', Plain s s' → A s s')
include hA

theorem asks_pure (a : α) : Asks X A D fun _ : Option Nat → GkM Value => (pure a : GkM α) :=
  .act (fun s _ _ h => by cases h; exact hA _ _ (.refl s)) fun _ _ _ h => by cases h

omit hA in
theorem asks_throw {e : Stop} (he : D e) : Asks X A D fun _ : Option Nat → GkM Value => (throw e : GkM α) :=
  .act (fun _ _ _ h => by cases h) fun _ _ _ h => by cases h; exact he

theorem asks_get : Asks X A D fun _ : Option Nat → GkM Value => (get : GkM Run) :=
  .act (fun s _ _ h => by cases h; exact hA _ _ (.refl s)) fun _ _ _ h => by cases h

theorem asks_evalError (e : GkError) : Asks X A D fun _ : Option Nat → GkM Value => evalError e :=
  .act (fun _ _ _ h => by cases h; exact hA _ _ ⟨rfl, rfl, rfl, rfl, rfl, rfl, nofun⟩) fun _ _ _ h => by cases h

theorem asks_gkPrint (text : List UInt8) : Asks X A D fun _ : Option Nat → GkM Value => gkPrint text :=
  .act (fun _ _ _ h => by cases h; exact hA _ _ ⟨rfl, rfl, rfl, rfl, rfl, rfl, id⟩) fun _ _ _ h => by cases h

theorem asks_readLine : Asks X A D fun _ : Option Nat → GkM Value => readLine :=
  .act (fun _ _ _ h => by cases h; exact hA _ _ ⟨rfl, rfl, rfl, rfl, rfl, rfl, id⟩) fun _ _ _ h => by cases h

omit hA in
theorem setVar_plain {name : List UInt8} {val : Value} {b : Bool} {s s' : Run}
    (h : setVar name val s = .ok b s') :
    Plain s s' ∧ s'.callDepth = s.callDepth := by
  obtain ⟨vs, -, hrun⟩ | ⟨-, -, hrun⟩ | ⟨-, -, hrun⟩ := setVar_cases name val s
  all_goals
    rw [hrun] at h
    cases h
  · exact ⟨⟨rfl, rfl, rfl, rfl, rfl, rfl, id⟩, rfl⟩
  · exact ⟨⟨rfl, rfl, rfl, rfl, rfl, rfl, id⟩, rfl⟩
  · exact ⟨⟨rfl, rfl, rfl, rfl, rfl, rfl, nofun⟩, rfl⟩

theorem asks_setVar (name : List UInt8) (val : Value) : Asks X A D fun _ : Option Nat → GkM Value =>
  setVar name val := by
  refine .act (fun s b s' h => hA _ _ (setVar_plain h).1) fun s e s' h => ?_
  obtain ⟨vs, -, hrun⟩ | ⟨-, -, hrun⟩ | ⟨-, -, hrun⟩ := setVar_cases name val s
  all_goals
    rw [hrun] at h
    cases h

theorem asks_unlessError {rest : (Option Nat → GkM Value) → GkM Value} (h : Asks X A D rest) :
    Asks X A D fun ev => unlessError (rest ev) :=
  .bind (asks_get hA) fun _ => .ite (asks_pure hA _) h

theorem asks_evalVar : Asks X A D fun _ : Option Nat → GkM Value => evalVar n := by
  refine .bind (p := fun _ => get) (asks_get hA) fun s => ?_
  cases findVar s.vars n.strVal with
  | some v => exact asks_pure hA _
  | none => exact asks_evalError hA _

theorem asks_strictOp {op : TokenType} (hD : op = .slash ∨ op = .percent → D .divideError) (l r : Value) :
    Asks X A D fun _ : Option Nat → GkM Value => strictOp op l r := by
  have hdiv : D .divideError → ∀ a b zero result, Asks X A D fun _ : Option Nat → GkM Value =>
    divide a b zero result :=
    fun hD a b zero result => .ite (asks_evalError hA _) (.ite (asks_throw hD) (asks_pure hA _))
  unfold strictOp
  split
  · exact asks_pure hA _
  · exact asks_pure hA _
  · exact asks_pure hA _
  · unfold integerOp
    split
    case h_4 => exact hdiv (hD (.inl rfl)) _ _ _ _
    case h_5 => exact hdiv (hD (.inr rfl)) _ _ _ _
    all_goals first | exact asks_pure hA _ | exact asks_evalError hA _
  · exact asks_evalError hA _

section
variable (hX : ∀ i : Option Nat, (∀ c ∈ i, c ∈ n.children) → X i)
include hX

omit hA in
theorem asks_child (j : Nat) : Asks X A D fun ev : Option Nat → GkM Value => ev n.children[j]? :=
  .ask (hX _ fun _ hc => List.mem_of_getElem? hc)

theorem asks_evalAssign : Asks X A D fun ev => evalAssign ev n :=
  .bind (asks_child hX 0) fun _ => asks_unlessError hA <|
    .bind (asks_setVar hA _ _) fun _ => .ite (asks_pure hA _) (asks_pure hA _)

theorem asks_evalUnop : Asks X A D fun ev => evalUnop ev n := by
  refine .bind (asks_child hX 0) fun v =>
    asks_unlessError hA <| .ite ?_ (.ite (asks_pure hA _) (asks_pure hA _))
  cases v with
  | int v => exact asks_pure hA _
  | str | bool | none => exact asks_evalError hA _

theorem asks_evalBinop (hD : n.op = .slash ∨ n.op = .percent → D .divideError) : Asks X A D fun ev =>
  evalBinop ev n := by
  have hright : Asks X A D fun ev => (do let r ← ev n.children[1]?; return .bool (isTruthy r) : GkM Value) :=
    .bind (asks_child hX 1) fun _ => asks_pure hA _
  refine .ite ?_ (.ite ?_ ?_)
  · exact .bind (asks_child hX 0) fun l => .ite hright (asks_pure hA _)
  · exact .bind (asks_child hX 0) fun l => .ite (asks_pure hA _) hright
  · exact .bind (asks_child hX 0) fun l => asks_unlessError hA <| .bind (asks_child hX 1) fun r =>
      asks_unlessError hA (asks_strictOp hA hD _ _)

omit hX in
theorem asks_printLoop {cs : List Nat} (hcs : ∀ c ∈ cs, X (some c)) : Asks X A D fun ev => printLoop ev cs := by
  induction cs with
  | nil => exact .bind (asks_gkPrint hA _) fun _ => asks_pure hA _
  | cons c cs ih =>
    refine .bind (.ask (hcs c List.mem_cons_self)) fun v =>
      asks_unlessError hA <| .bind (asks_gkPrint hA _) fun _ => ?_
    exact ih fun d hd => hcs d (List.mem_cons_of_mem _ hd)

theorem asks_evalInput : Asks X A D fun ev => evalInput ev n := by
  unfold evalInput
  cases hn : n.children with
  | nil => exact asks_readLine hA
  | cons c cs =>
    have hc : X (some c) := hX _ fun d hd => by
      cases hd
      rw [hn]
      exact List.mem_cons_self
    exact .bind (.ask hc) fun v => asks_unlessError hA <| .bind (asks_gkPrint hA _) fun _ => asks_readLine hA

theorem asks_evalIntCast : Asks X A D fun ev => evalIntCast ev n := by
  refine .ite (asks_evalError hA _) (.bind (asks_child hX 0) fun v => asks_unlessError hA ?_)
  cases v with
  | int v => exact asks_pure hA _
  | str str =>
    cases hp : parseInt str with
    | some v =>
      simp only [hp]
      exact asks_pure hA _
    | none =>
      simp only [hp]
      exact asks_evalError hA _
  | bool | none => exact asks_evalError hA _

omit hX in
theorem asks_blockLoop {cs : List Nat} (hcs : ∀ c ∈ cs, X (some c)) (last : Value) :
    Asks X A D fun ev => blockLoop ev cs last := by
  induction cs generalizing last with
  | nil => exact asks_pure hA _
  | cons c cs ih =>
    refine .bind (.ask (hcs c List.mem_cons_self)) fun v => .bind (asks_get hA) fun s =>
      .ite (asks_pure hA _) ?_
    exact ih (fun d hd => hcs d (List.mem_cons_of_mem _ hd)) v

theorem asks_evalIf : Asks X A D fun ev => evalIf ev n :=
  .bind (asks_child hX 0) fun _ => asks_unlessError hA <|
    .ite (asks_child hX 1) (.ite (asks_child hX 2) (asks_pure hA _))

omit hX in
theorem asks_evalArgs {cs : List Nat} (hcs : ∀ c ∈ cs, X (some c)) : Asks X A D fun ev => evalArgs ev cs := by
  induction cs with
  | nil => exact asks_pure hA _
  | cons c cs ih =>
    refine .bind (.ask (hcs c List.mem_cons_self)) fun v => .bind (asks_get hA) fun s =>
      .ite (asks_pure hA _) ?_
    refine .bind (ih fun d hd => hcs d (List.mem_cons_of_mem _ hd)) fun vs => ?_
    cases vs with
    | none => exact asks_pure hA _
    | some vs => exact asks_pure hA _

end
end

/-! Loops also take the jumps of their bodies up. -/

theorem loopGoesOn_ok {s s' : Run} {b : Bool} (h : loopGoesOn s = .ok b s') :
    s'.nodes = s.nodes ∧ s'.funcs = s.funcs ∧
    s'.returning = s.returning ∧ s'.returnVal = s.returnVal ∧ s'.error = s.error ∧
    (b = true → s.error = none ∧ s.returning = false) := by
  rw [loopGoesOn, bind_ok (get_apply s)] at h
  split at h
  · cases h
    exact ⟨rfl, rfl, rfl, rfl, rfl, fun hgo => absurd hgo Bool.false_ne_true⟩
  · next hgo =>
    have hon : s.error = none ∧ s.returning = false := by
      rw [Bool.or_eq_true, not_or] at hgo
      exact ⟨by simpa using hgo.1, Bool.eq_false_of_not_eq_true hgo.2⟩
    split at h
    · cases h
      exact ⟨rfl, rfl, rfl, rfl, rfl, fun _ => hon⟩
    · split at h
      · cases h
        exact ⟨rfl, rfl, rfl, rfl, rfl, fun _ => hon⟩
      · cases h
        exact ⟨rfl, rfl, rfl, rfl, rfl, fun _ => hon⟩

section
variable {X : Option Nat → Prop} {A : Run → Run → Prop} {D : Stop → Prop} {n : Node}
  (hA : ∀ s s', Plain s s' → A s s')
  (hG : ∀ s b s', loopGoesOn s = .ok b s' → A s s') (hX : ∀ i, X i)
include hA

theorem asks_forLimit (v : Value) (e : GkError) : Asks X A D fun _ : Option Nat → GkM Value =>
  forLimit v e := by
  refine .bind (p := fun _ => get) (asks_get hA) fun s => .ite (asks_pure hA _) ?_
  cases v with
  | int limit => exact asks_pure hA _
  | str | bool | none => exact .bind (asks_evalError hA e) fun _ => asks_pure hA _

include hX

theorem asks_evalLimit (hD : D .overrun) : Asks X A D fun ev => evalLimit ev n := by
  refine .bind (asks_get hA) fun s => ?_
  cases s.nodes[n.children[0]?.getD maxNodes]? with
  | none => exact asks_throw hD
  | some iter =>
    refine .ite (.ite ?_ ?_) ?_
    · exact .bind (asks_evalError hA _) fun _ => asks_pure hA _
    · exact .bind (.ask (hX _)) fun v => asks_forLimit hA v _
    · exact .bind (.ask (hX _)) fun v => asks_forLimit hA v _

include hG

omit hA hX in
theorem asks_loopGoesOn : Asks X A D fun _ : Option Nat → GkM Value => loopGoesOn := by
  refine .act hG fun s e s' h => ?_
  rw [loopGoesOn, bind_ok (get_apply s)] at h
  split at h
  · cases h
  · split at h
    · cases h
    · split at h
      · cases h
      · cases h

theorem asks_whileLoop (hD : D .outOfFuel) (fuel : Nat) (result : Value) : Asks X A D fun ev =>
  whileLoop ev n fuel result := by
  induction fuel generalizing result with
  | zero => exact asks_throw hD
  | succ fuel ih =>
    refine .bind (.ask (hX _)) fun cond => .bind (asks_get hA) fun s => .ite (asks_pure hA _) ?_
    exact .bind (.ask (hX _)) fun result => .bind (asks_loopGoesOn hG) fun b =>
      .ite (ih result) (asks_pure hA _)

theorem asks_forLoop (left : Nat) (i : Int) (result : Value) : Asks X A D fun ev =>
  forLoop ev n left i result := by
  induction left generalizing i result with
  | zero => exact asks_pure hA _
  | succ left ih =>
    refine .bind (asks_setVar hA _ _) fun b => .ite ?_ (asks_pure hA _)
    exact .bind (.ask (hX _)) fun result => .bind (asks_loopGoesOn hG) fun b =>
      .ite (ih _ result) (asks_pure hA _)

theorem asks_evalFor (hD : D .overrun) : Asks X A D fun ev => evalFor ev n := by
  refine .bind (asks_evalLimit hA hX hD) fun limit => ?_
  cases limit with
  | none => exact asks_pure hA _
  | some limit => exact asks_forLoop hA hG hX _ _ _

end

/-- The entry that a definition makes in the table of functions. -/
def Node.func (n : Node) (nodes : List Node) : FuncDef :=
  ⟨n.strVal, (n.children.dropLast.take maxParams).map fun c =>
    (nodes[c]?.map (·.strVal)).getD [], n.children.getLast?⟩

/-- What every node leaves as it is, and how definitions come into the table. -/
structure Acts (n : Node) (s s' : Run) : Prop where
  nodes : s'.nodes = s.nodes
  funcs : ∀ f ∈ s'.funcs, f ∈ s.funcs ∨ n.type = .defNode ∧ f = n.func s.nodes

theorem Acts.of_eq {n : Node} {s s' : Run} (hnodes : s'.nodes = s.nodes) (hfuncs : s'.funcs = s.funcs) :
    Acts n s s' :=
  ⟨hnodes, fun _ hf => .inl (hfuncs ▸ hf)⟩

section
variable {X : Option Nat → Prop} {D : Stop → Prop} {n : Node} (hX : ∀ i, X i)
include hX

omit hX in
theorem acts_of_plain (n : Node) : ∀ s s' : Run, Plain s s' → Acts n s s' := fun _ _ h => .of_eq h.nodes h.funcs

omit hX in
theorem asks_update {f : GkState → GkState} (hnodes : ∀ m, (f m).nodes = m.nodes)
    (hfuncs : ∀ m, (f m).funcs = m.funcs) :
    Asks X (Acts n) D fun _ : Option Nat → GkM Value => update f :=
  .act (fun s _ _ h => by cases h; exact .of_eq (hnodes s.toGkState) (hfuncs s.toGkState)) fun _ _ _
    h => by cases h

omit hX in
theorem acts_of_goesOn (s : Run) (b : Bool) (s' : Run) (h : loopGoesOn s = .ok b s') : Acts n s s' := by
  obtain ⟨hnodes, hfuncs, -⟩ := loopGoesOn_ok h
  exact .of_eq hnodes hfuncs

omit hX in
theorem evalDef_cases (n : Node) (s : Run) :
    (maxFuncs ≤ s.funcs.length ∧ evalDef n s = evalError .tooManyFunctions s) ∨
    (s.funcs.length < maxFuncs ∧ evalDef n s =
      .ok .none ⟨{ s.toGkState with funcs := s.funcs ++ [n.func s.nodes] }, s.toGkState :: s.past⟩) := by
  rw [evalDef, bind_ok (get_apply s)]
  by_cases hroom : maxFuncs ≤ s.funcs.length
  · exact .inl ⟨hroom, by rw [if_pos hroom]⟩
  · exact .inr ⟨Nat.lt_of_not_le hroom, by rw [if_neg hroom]; rfl⟩

omit hX in
theorem asks_evalDef (htype : n.type = .defNode) : Asks X (Acts n) D fun _ : Option Nat → GkM Value =>
  evalDef n := by
  refine .act (fun s v s' h => ?_) fun s e s' h => ?_
  all_goals
    obtain ⟨-, hrun⟩ | ⟨-, hrun⟩ := evalDef_cases n s
    all_goals
      rw [hrun] at h
      cases h
  · exact .of_eq rfl rfl
  · refine ⟨rfl, fun f hf => ?_⟩
    obtain hf | hf := List.mem_append.mp hf
    · exact .inl hf
    · exact .inr ⟨htype, List.mem_singleton.mp hf⟩

omit hX in
theorem asks_bindParams (ps : List (List UInt8 × Value)) : Asks X (Acts n) D fun _ :
    Option Nat → GkM Value => bindParams ps := by
  induction ps with
  | nil => exact asks_pure (acts_of_plain n) _
  | cons p ps ih =>
    exact .bind (p := fun _ => setVar p.1 p.2) (asks_setVar (acts_of_plain n) _ _) fun _ =>
      .ite ih (asks_pure (acts_of_plain n) _)

theorem asks_runBody (f : FuncDef) : Asks X (Acts n) D fun ev => runBody ev f :=
  .bind (.ask (hX _)) fun _ => .bind (asks_get (acts_of_plain n)) fun _ =>
    .bind (asks_update (fun _ => rfl) fun _ => rfl) fun _ =>
      .bind (asks_update (fun _ => rfl) fun _ => rfl) fun _ => asks_pure (acts_of_plain n) _

theorem asks_applyFunc (f : FuncDef) (args : List Value) : Asks X (Acts n) D fun ev => applyFunc ev f args :=
  .bind (asks_update (fun _ => rfl) fun _ => rfl) fun _ => .bind (asks_bindParams _) fun _ => .ite
    (.bind (asks_runBody hX f) fun _ => .bind (asks_update (fun _ => rfl) fun _ => rfl) fun _ =>
      asks_pure (acts_of_plain n) _)
    (.bind (asks_update (fun _ => rfl) fun _ => rfl) fun _ => asks_pure (acts_of_plain n) _)

theorem asks_evalCall : Asks X (Acts n) D fun ev => evalCall ev n := by
  refine .bind (asks_get (acts_of_plain n)) fun s => ?_
  cases findFunc s.funcs n.strVal with
  | none => exact asks_evalError (acts_of_plain n) _
  | some f =>
    refine .ite (asks_evalError (acts_of_plain n) _) (.ite (asks_evalError (acts_of_plain n) _) ?_)
    refine .bind (asks_evalArgs (acts_of_plain n) fun c _ => hX (some c)) fun args => ?_
    cases args with
    | none => exact asks_pure (acts_of_plain n) _
    | some args => exact asks_applyFunc hX f args

theorem asks_evalReturn : Asks X (Acts n) D fun ev => evalReturn ev n := by
  have hset : ∀ v, Asks X (Acts n) D fun _ : Option Nat → GkM Value => (do
      update fun s => { s with returning := true, returnVal := v }
      return v : GkM Value) := fun v =>
    .bind (p := fun _ => update _) (asks_update (fun _ => rfl) fun _ => rfl) fun _ =>
      asks_pure (acts_of_plain n) _
  unfold evalReturn
  cases n.children with
  | nil => exact hset .none
  | cons c cs => exact .bind (.ask (hX _)) fun v => asks_unlessError (acts_of_plain n) (hset v)

/-- Every node is made of questions and such actions; only a division is a fault by itself. -/
theorem asks_evalNode (hD : ∀ e, e ≠ .divideError → D e)
    (hdiv : n.type = .binop → n.op = .slash ∨ n.op = .percent → D .divideError) (fuel : Nat) :
    Asks X (Acts n) D fun ev => evalNode ev fuel n := by
  have hkids : ∀ i : Option Nat, (∀ c ∈ i, c ∈ n.children) → X i := fun i _ => hX i
  unfold evalNode
  cases ht : n.type with
  | int | str | bool => exact asks_pure (acts_of_plain n) _
  | var => exact asks_evalVar (acts_of_plain n)
  | assign => exact asks_evalAssign (acts_of_plain n) hkids
  | unop => exact asks_evalUnop (acts_of_plain n) hkids
  | binop => exact asks_evalBinop (acts_of_plain n) hkids (hdiv ht)
  | print => exact asks_printLoop (acts_of_plain n) fun c _ => hX (some c)
  | input => exact asks_evalInput (acts_of_plain n) hkids
  | intCast => exact asks_evalIntCast (acts_of_plain n) hkids
  | block => exact asks_blockLoop (acts_of_plain n) (fun c _ => hX (some c)) _
  | ifNode => exact asks_evalIf (acts_of_plain n) hkids
  | whileNode => exact asks_whileLoop (acts_of_plain n) acts_of_goesOn hX (hD _ (by decide)) _ _
  | forNode => exact asks_evalFor (acts_of_plain n) acts_of_goesOn hX (hD _ (by decide))
  | defNode => exact asks_evalDef ht
  | call => exact asks_evalCall hX
  | returnNode => exact asks_evalReturn hX
  | breakNode | continueNode =>
    exact .bind (p := fun _ => update _) (asks_update (fun _ => rfl) fun _ => rfl) fun _ =>
      asks_pure (acts_of_plain n) _
  | range => exact asks_evalError (acts_of_plain n) _

end

/-- An expression that is no call asks for its children and changes nothing that a statement or a call would. -/
theorem asks_expr {n : Node} (htype : n.type.isExpr = true) (hcall : n.type ≠ .call) (fuel : Nat) :
    Asks (fun i => ∀ c ∈ i, c ∈ n.children) Plain (fun _ => True) fun ev => evalNode ev fuel n := by
  have hA : ∀ s s' : Run, Plain s s' → Plain s s' := fun _ _ h => h
  have hkids : ∀ c ∈ n.children, ∀ d ∈ some c, d ∈ n.children := by
    rintro c hc d ⟨⟩
    exact hc
  unfold evalNode
  cases ht : n.type with
  | int | str | bool => exact asks_pure hA _
  | var => exact asks_evalVar hA
  | unop => exact asks_evalUnop hA fun _ h => h
  | binop => exact asks_evalBinop hA (fun _ h => h) fun _ => trivial
  | print => exact asks_printLoop hA hkids
  | input => exact asks_evalInput hA fun _ h => h
  | intCast => exact asks_evalIntCast hA fun _ h => h
  | range => exact asks_evalError hA _
  | call => exact absurd ht hcall
  | assign | ifNode | whileNode | forNode | defNode | returnNode | breakNode | continueNode | block =>
    rw [ht] at htype
    cases htype

/-! What an evaluation leads to. -/

/-- `eval` with more fuel than the evaluations that it asks for. -/
def evalBody (fuel : Nat) (ev : Option Nat → GkM Value) (i : Option Nat) : GkM Value :=
  evalAt (evalNode ev fuel) i

/-- The evaluation of `i` in `s` leads to that of `j` in `t`, through nodes whose type is in `via`. -/
def Evaluates (via : NodeType → Prop) (fuel : Nat) (i : Option Nat) (s : Run) (fuel' : Nat)
    (j : Option Nat) (t : Run) : Prop :=
  LeadsTo eval evalBody (fun i s => ∀ c ∈ i, ∀ n, s.nodes[c]? = some n → via n.type) fuel i s fuel' j t

variable {via : NodeType → Prop} {fuel fuel' c : Nat} {i j l : Option Nat} {s s' t u : Run}
  {n : Node} {v : Value}
  {ev : Option Nat → GkM Value} {I : Option Nat → Run → Prop}

theorem evalBody_node (hn : s.nodes[c]? = some n) (he : s.error = none) :
    evalBody fuel ev (some c) s = evalNode ev fuel n s := by
  rw [evalBody, evalAt, unlessError, bind_ok (get_apply s), he]
  simp only [Option.isSome_none, Bool.false_eq_true, if_false]
  rw [bind_ok (get_apply s), hn]

theorem visits_evalBody (hn : s.nodes[c]? = some n) (he : s.error = none) :
    Visits (fun ev => evalBody fuel ev (some c)) ev s j t ↔ Visits (fun ev => evalNode ev fuel n) ev s j t :=
  Visits.congr fun _ => evalBody_node hn he

/-- Only a node that is there asks, and only without an error. -/
theorem node_of_visits (h : Visits (fun ev => evalBody fuel ev i) ev s j t) :
    ∃ c n, i = some c ∧ s.nodes[c]? = some n ∧ s.error = none ∧
    Visits (fun ev => evalNode ev fuel n) ev s j t := by
  cases i with
  | none => cases h .failed s
  | some c =>
    cases he : s.error with
    | some x =>
      have hrun : evalBody fuel _ (some c) s = _ := h .failed s
      rw [evalBody, evalAt, unlessError, bind_ok (get_apply s), he] at hrun
      cases hrun
    | none =>
      cases hn : s.nodes[c]? with
      | some n => exact ⟨c, n, rfl, hn, rfl, (visits_evalBody hn he).mp h⟩
      | none =>
        have hrun : evalBody fuel _ (some c) s = _ := h .failed s
        rw [evalBody, evalAt, unlessError, bind_ok (get_apply s), he] at hrun
        simp only [Option.isSome_none, Bool.false_eq_true, if_false] at hrun
        rw [bind_ok (get_apply s), hn] at hrun
        cases hrun

theorem visits_unlessError {rest : (Option Nat → GkM Value) → GkM Value} :
    Visits (fun ev => unlessError (rest ev)) ev s j t ↔ s.error = none ∧ Visits rest ev s j t := by
  cases he : s.error with
  | none =>
    rw [and_iff_right rfl]
    refine Visits.congr fun ev => ?_
    rw [unlessError, bind_ok (get_apply s), he]
    rfl
  | some x =>
    refine ⟨fun h => ?_, fun h => by cases h.1⟩
    have hrun : unlessError (rest _) s = _ := h .failed s
    rw [unlessError, bind_ok (get_apply s), he] at hrun
    cases hrun

namespace Evaluates

theorem refl (via : NodeType → Prop) (fuel : Nat) (i : Option Nat) (s : Run) :
    Evaluates via fuel i s fuel i s :=
  LeadsTo.refl fuel i s

theorem step (hn : s.nodes[c]? = some n) (he : s.error = none) (hvia : via n.type)
    (hv : Visits (fun ev => evalNode ev fuel n) (eval fuel) s l u) (h : Evaluates via fuel l u fuel' j t) :
    Evaluates via (fuel + 1) (some c) s fuel' j t := by
  refine LeadsTo.step (fun d hd m hm => ?_) ((visits_evalBody hn he).mpr hv) h
  cases hd
  rw [hn] at hm
  cases hm
  exact hvia

theorem trans {fuel'' : Nat} (h : Evaluates via fuel i s fuel' j t) (h' : Evaluates via fuel' j t fuel'' l u) :
    Evaluates via fuel i s fuel'' l u := LeadsTo.trans h h'

/-- A stop on the way is the stop of the whole. -/
theorem error_eq {e : Stop} (h : Evaluates via fuel i s fuel' j t) (he : eval fuel' j t = .error e u) :
    eval fuel i s = .error e u := LeadsTo.error_eq (fun _ _ => rfl) h he

/-- What every step keeps. -/
theorem invariant (h : Evaluates via fuel i s fuel' j t)
    (hstep : ∀ k c n s l u, s.nodes[c]? = some n → s.error = none → via n.type →
      Visits (fun ev => evalNode ev k n) (eval k) s l u → I (some c) s → I l u) (hs : I i s) : I j t := by
  refine LeadsTo.invariant h (fun k i s l u hi hv hI => ?_) hs
  obtain ⟨c, n, rfl, hn, he, hv⟩ := node_of_visits hv
  exact hstep k c n s l u hn he (hi c rfl n hn) hv hI

/-- What holds at the end and, if it holds at a question, holds of the node that asks. -/
theorem backward {P : Nat → Option Nat → Run → Prop} (h : Evaluates via fuel i s fuel' j t)
    (hstep : ∀ k c n s l u, s.nodes[c]? = some n → s.error = none → via n.type →
      Visits (fun ev => evalNode ev k n) (eval k) s l u → Evaluates via k l u fuel' j t → P k l u →
      P (k + 1) (some c) s)
    (ht : P fuel' j t) : P fuel i s := by
  unfold Evaluates at h
  induction h with
  | refl => exact ht
  | step hi hv h ih =>
    obtain ⟨c, n, rfl, hn, he, hv⟩ := node_of_visits hv
    exact hstep _ c n _ _ _ hn he (hi c rfl n hn) hv h (ih hstep ht)

end Evaluates

/-- A result is that of a node, or nothing is done. -/
theorem eval_cases (h : eval fuel i s = .ok v s') : (v = .none ∧ s' = s ∧ (i = none ∨ s.error ≠ none)) ∨
    ∃ k c n, fuel = k + 1 ∧ i = some c ∧ s.nodes[c]? = some n ∧ s.error = none ∧
    evalNode (eval k) k n s = .ok v s' := by
  have hat : ∀ {node : Node → GkM Value} {c : Nat}, evalAt node (some c) s = .ok v s' →
      (v = .none ∧ s' = s ∧ s.error ≠ none) ∨ ∃ n, s.nodes[c]? = some n ∧ s.error = none ∧
      node n s = .ok v s' := by
    intro node c h
    rw [evalAt, unlessError, bind_ok (get_apply s)] at h
    cases he : s.error with
    | some x =>
      rw [he] at h
      cases h
      exact .inl ⟨rfl, rfl, Option.some_ne_none x⟩
    | none =>
      simp only [he, Option.isSome_none, Bool.false_eq_true, if_false] at h
      rw [bind_ok (get_apply s)] at h
      cases hn : s.nodes[c]? with
      | none =>
        rw [hn] at h
        cases h
      | some n =>
        rw [hn] at h
        exact .inr ⟨n, rfl, rfl, h⟩
  cases i with
  | none =>
    cases fuel <;> cases h <;> exact .inl ⟨rfl, rfl, .inl rfl⟩
  | some c =>
    cases fuel with
    | zero =>
      obtain ⟨hv, hs, he⟩ | ⟨n, -, -, h⟩ := hat h
      · exact .inl ⟨hv, hs, .inr he⟩
      · cases h
    | succ fuel =>
      obtain ⟨hv, hs, he⟩ | ⟨n, hn, he, h⟩ := hat h
      · exact .inl ⟨hv, hs, .inr he⟩
      · exact .inr ⟨fuel, c, n, rfl, rfl, hn, he, h⟩

/-- There was no error before if there is none. -/
theorem eval_error (h : eval fuel i s = .ok v s') (he : s'.error = none) : s.error = none := by
  by_contra hne
  obtain ⟨w, hrun⟩ := inert_eval fuel i s hne
  rw [hrun] at h
  cases h
  exact hne he

theorem evalBinop_strict {ev : Option Nat → GkM Value} (hand : n.op ≠ .and) (hor : n.op ≠ .or) :
    evalBinop ev n =
    (do
      let l ← ev n.children[0]?
      unlessError do
        let r ← ev n.children[1]?
        unlessError (strictOp n.op l r)) := by
  rw [evalBinop, if_neg hand, if_neg hor]

/-- Of an operator whose operands are both evaluated only these decide. -/
theorem eval_strict {j k : Nat} {l r : Value} {s₁ s₂ : Run} (hn : s.nodes[j]? = some n)
    (htype : n.type = .binop)
    (hand : n.op ≠ .and) (hor : n.op ≠ .or) (hleft : eval k n.children[0]? s = .ok l s₁) (he₁ : s₁.error = none)
    (hright : eval k n.children[1]? s₁ = .ok r s₂) (he₂ : s₂.error = none) :
    eval (k + 1) (some j) s = strictOp n.op l r s₂ := by
  rw [eval_node hn (eval_error hleft he₁), evalNode, htype]
  simp only
  rw [evalBinop_strict hand hor, checked_ok hleft he₁, checked_ok hright he₂]

/-- What the actions of all nodes keep is kept by every evaluation. -/
theorem eval_keeps {I : Run → Prop} (hI : ∀ x, I x → ∀ n ∈ x.nodes, ∀ y y', Acts n y y' → I y → I y')
    (h : eval fuel i s = .ok v s') (hs : I s) : I s' := by
  induction fuel generalizing i s v s' with
  | zero =>
    obtain ⟨-, rfl, -⟩ | ⟨k, -, -, ⟨⟩, -⟩ := eval_cases h
    exact hs
  | succ fuel ih =>
    obtain ⟨-, rfl, -⟩ | ⟨k, c, n, hk, -, hn, -, h⟩ := eval_cases h
    · exact hs
    · cases hk
      have hasks := asks_evalNode (X := fun _ => True) (D := fun _ => True) (n := n) (fun _ => trivial)
        (fun _ _ => trivial)
        (fun _ _ => trivial) fuel
      exact hasks.keeps (hI s hs n (List.mem_of_getElem? hn)) (fun _ _ _ _ ht _ _ hrun => ih hrun ht) hs h

theorem visits_keeps {I : Run → Prop} (hI : ∀ x, I x → ∀ n ∈ x.nodes, ∀ y y', Acts n y y' → I y → I y')
    (hn : ∀ y y', Acts n y y' → I y → I y')
    (hv : Visits (fun ev => evalNode ev fuel n) (eval fuel) s j t) (hs : I s) : I t := by
  have hasks := asks_evalNode (X := fun _ => True) (D := fun _ => True) (n := n) (fun _ => trivial)
    (fun _ _ => trivial)
    (fun _ _ => trivial) fuel
  exact hasks.keeps_at hn (fun _ _ _ _ ht _ _ hrun => eval_keeps hI hrun ht) hs hv

theorem Evaluates.keeps {I : Run → Prop} (h : Evaluates via fuel i s fuel' j t)
    (hI : ∀ x, I x → ∀ n ∈ x.nodes, ∀ y y', Acts n y y' → I y → I y') (hs : I s) : I t :=
  h.invariant (I := fun _ x => I x) (fun _ _ n x _ _ hn _ _ hv hx =>
    visits_keeps hI (hI x hx n (List.mem_of_getElem? hn)) hv hx) hs

/-- The program is always the same. -/
theorem eval_nodes (h : eval fuel i s = .ok v s') : s'.nodes = s.nodes :=
  eval_keeps (I := fun x => x.nodes = s.nodes) (fun _ _ _ _ _ _ hA hy => hA.nodes.trans hy) h rfl

theorem visits_nodes (hv : Visits (fun ev => evalNode ev fuel n) (eval fuel) s j t) : t.nodes = s.nodes :=
  visits_keeps (I := fun x => x.nodes = s.nodes) (fun _ _ _ _ _ _ hA hy => hA.nodes.trans hy)
    (fun _ _ hA hy => hA.nodes.trans hy) hv rfl

theorem Evaluates.nodes_eq (h : Evaluates via fuel i s fuel' j t) : t.nodes = s.nodes :=
  h.keeps (I := fun x => x.nodes = s.nodes) (fun _ _ _ _ _ _ hA hy => hA.nodes.trans hy) rfl

/-- The state at a question comes from the one before by the changes of the interpreter. -/
theorem visits_steps (hd : 0 ≤ s.callDepth) (he : s.error = none) (ht : t.error = none)
    (hv : Visits (fun ev => evalNode ev fuel n) (eval fuel) s j t) : Steps s.callDepth s t := by
  have hev : EvalSteps (stopAt (eval fuel) j t .failed t) := by
    intro l x hx
    by_cases hlx : l = j ∧ x = t
    · obtain ⟨rfl, rfl⟩ := hlx
      rw [stopAt_self]
      exact .throw .failed ht
    · have heq : stopAt (eval fuel) j t .failed t l x = eval fuel l x := if_neg hlx
      rw [heq]
      exact stepped_eval fuel l x hx
  have hstop : evalNode (stopAt (eval fuel) j t .failed t) fuel n s = .error .failed t := hv .failed t
  have hsteps := (stepped_evalNode (n := n) hev hd fuel he).steps
  rwa [hstop] at hsteps

theorem Steps.depth_le {d : Int} (h : Steps d s t) (hd : d ≤ s.callDepth) : d ≤ t.callDepth := by
  cases h with
  | refl => exact hd
  | tail _ _ hd' => exact hd'


/-! Whole programs. -/

variable {m : GkState} {src : List UInt8} {s₁ s₂ : Run} {root : Nat} {nodes : List Node}

/-- The run of a program begins in order. -/
theorem ready_parsed (hl : gkLex src (begun m) = .ok () s₁) (hp : gkParse s₁ = .ok root s₂) :
    Ready s₂.nodes s₂ := by
  have h := shows_parsed hl hp
  have hvars : s₂.vars = [] := h.vars
  refine ⟨fun _ => ?_, Int.le_of_eq h.depth.symm, rfl⟩
  constructor <;> simp [hvars, h.funcs, h.depth, maxVars, maxFuncs, maxCallDepth]

/-- Every state of it is in order. -/
theorem ready_since {x : GkState} (hl : gkLex src (begun m) = .ok () s₁) (hp : gkParse s₁ = .ok root s₂)
    (hx : x ∈ (final (eval fuel (some root) s₂)).since s₂) : Ready s₂.nodes x.start := by
  have hs₂ := ready_parsed hl hp
  have hsteps := (stepped_eval fuel (some root) s₂ hs₂.depth).steps
  obtain ⟨hdepth, horder, hnodes⟩ := hsteps.since
    (P := fun m => s₂.callDepth ≤ m.callDepth ∧ (m.error = none → Scoped m) ∧ m.nodes = s₂.nodes)
    (fun m m' hstep hd ⟨hm, hord, hno⟩ => ⟨hd, hstep.scoped hord, (hstep.outside hm).1.trans hno⟩)
    ⟨Int.le_refl _, hs₂.order, rfl⟩ x hx
  exact ⟨horder, Int.le_trans hs₂.depth hdepth, hnodes⟩

/-- Every evaluation that begins without an error begins in order. -/
theorem Evaluates.ready (h : Evaluates via fuel i s fuel' j t) (hs : Ready nodes s)
    (ht : t.error = none) : Ready nodes t := by
  refine h.invariant (I := fun _ t => t.error = none → Ready nodes t)
    (fun k c n s l u hn he _ hv hs hu => ?_) (fun _ => hs) ht
  have hs := hs he
  have hsteps := visits_steps hs.depth he hu hv
  refine ⟨hsteps.scoped hs.order, Int.le_trans hs.depth (hsteps.depth_le (Int.le_refl _)), ?_⟩
  exact (hsteps.outside (Int.le_refl _)).1.trans hs.nodes_eq

/-- The states after lexing and parsing, with the root. -/
def parsed (src : List UInt8) : Option (Run × Nat × Run) :=
  match gkLex src (begun (freshState [])) with
  | .error _ _ => none
  | .ok _ s₁ =>
    match gkParse s₁ with
    | .error _ _ => none
    | .ok root s₂ => some (s₁, root, s₂)

theorem parsed_eq_some (h : parsed src = some (s₁, root, s₂)) :
    gkLex src (begun (freshState [])) = .ok () s₁ ∧ gkParse s₁ = .ok root s₂ := by
  unfold parsed at h
  split at h
  · cases h
  · next hl =>
    split at h
    · cases h
    · next hp =>
      cases h
      exact ⟨hl, hp⟩

end GeckoOS.Gk
