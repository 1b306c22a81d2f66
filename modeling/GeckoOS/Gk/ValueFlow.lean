import GeckoOS.Gk.Evaluations
import GeckoOS.Gk.Sources

/-! Where the values and the names of a running script come from: if the literals
of the program and all operations stay in a domain, so does every evaluation. -/
namespace GeckoOS.Gk
open Lib

/-- A program, with the values and the names that are allowed in its run. -/
structure Domain where
  nodes : List Node
  value : Value → Prop
  name : List UInt8 → Prop

namespace Domain

/-- All values and names in a state are allowed. -/
structure Within (D : Domain) (m : GkState) : Prop where
  nodes_eq : m.nodes = D.nodes
  vars : ∀ v ∈ m.vars, D.name v.name ∧ D.value v.val
  funcs : ∀ f ∈ m.funcs, D.name f.name ∧ ∀ p ∈ f.params, D.name p
  returnVal : D.value m.returnVal

/-- What the nodes hold and what comes of allowed values is allowed. -/
structure Closed (D : Domain) : Prop where
  none : D.value .none
  bool : ∀ b, D.value (.bool b)
  int : ∀ n ∈ D.nodes, n.type = .int → D.value (.int n.intVal)
  str : ∀ n ∈ D.nodes, n.type = .str → D.value (.str n.strVal)
  name : ∀ n ∈ D.nodes, n.type = .assign ∨ n.type = .forNode → D.name n.strVal
  func : ∀ n ∈ D.nodes, n.type = .defNode → D.name n.strVal ∧ ∀ p ∈ (n.func D.nodes).params, D.name p
  negative : ∀ v, D.value (.int (wrap32 (-v)))
  strict : ∀ op l r s v s', D.value l → D.value r → strictOp op l r s = .ok v s' → D.value v
  line : ∀ text : List UInt8, D.value (.str (text.take (maxStr - 2)))
  parsed : ∀ str v, parseInt str = some v → D.value (.int v)
  counter : ∀ limit i, D.value (.int limit) → 0 ≤ i → i < limit → D.value (.int i)

end Domain

section
variable {D : Domain} {past : List GkState} {ev : Option Nat → GkM Value} {n : Node} {rest : GkM Value}

/-- A change of what is not looked at. -/
theorem within_change {f : GkState → GkState} (hvars : ∀ m, (f m).vars = m.vars)
    (hfuncs : ∀ m, (f m).funcs = m.funcs)
    (hval : ∀ m, (f m).returnVal = m.returnVal) (hnodes : ∀ m, (f m).nodes = m.nodes) :
    Gives (Held D.Within past) (fun _ => True) (update f) := by
  refine held_update fun m hm => ⟨(hnodes m).trans hm.nodes_eq, ?_, ?_, ?_⟩
  · rw [hvars]
    exact hm.vars
  · rw [hfuncs]
    exact hm.funcs
  · rw [hval]
    exact hm.returnVal

theorem within_gkPrint (text : List UInt8) : Gives (Held D.Within past) (fun _ => True) (gkPrint text) :=
  within_change (fun _ => rfl) (fun _ => rfl) (fun _ => rfl) fun _ => rfl

theorem setInScope_within {d : Int} {name : List UInt8} {val : Value} {l vs : List Var} (hval : D.value val)
    (hl : ∀ v ∈ l, D.name v.name ∧ D.value v.val) (h : setInScope d name val l = some vs) :
    ∀ v ∈ vs, D.name v.name ∧ D.value v.val := by
  fun_induction setInScope d name val l generalizing vs with
  | case1 => cases h
  | case2 => cases h
  | case3 v l =>
    cases h
    obtain ⟨hv, hl⟩ := List.forall_mem_cons.mp hl
    exact List.forall_mem_cons.mpr ⟨⟨hv.1, hval⟩, hl⟩
  | case4 v l _ _ ih =>
    obtain ⟨ws, hws, rfl⟩ := Option.map_eq_some_iff.mp h
    obtain ⟨hv, hl⟩ := List.forall_mem_cons.mp hl
    exact List.forall_mem_cons.mpr ⟨hv, ih hl hws⟩

theorem within_setVar {name : List UInt8} {val : Value} (hname : D.name name) (hval : D.value val) :
    Gives (Held D.Within past) (fun _ => True) (setVar name val) := by
  refine fun s hs => ⟨?_, fun _ _ _ => trivial⟩
  have hsince : ∀ m ∈ s.toGkState :: s.past, m ∈ past ∨ D.Within m := hs.moments
  obtain ⟨vs, hset, hrun⟩ | ⟨-, -, hrun⟩ | ⟨-, -, hrun⟩ := setVar_cases name val s
  · rw [hrun]
    refine ⟨⟨hs.now.nodes_eq, fun v hv => ?_, hs.now.funcs, hs.now.returnVal⟩, hsince⟩
    exact setInScope_within hval (fun w hw => hs.now.vars w (List.mem_reverse.mp hw)) hset v
      (List.mem_reverse.mp hv)
  · rw [hrun]
    refine ⟨⟨hs.now.nodes_eq, ?_, hs.now.funcs, hs.now.returnVal⟩, hsince⟩
    exact List.forall_mem_append.mpr ⟨hs.now.vars, List.forall_mem_singleton.mpr ⟨hname, hval⟩⟩
  · rw [hrun]
    exact ⟨⟨hs.now.nodes_eq, hs.now.vars, hs.now.funcs, hs.now.returnVal⟩, hsince⟩

theorem within_popScope : Gives (Held D.Within past) (fun _ => True) popScope :=
  held_update fun _ hm =>
    ⟨hm.nodes_eq, fun v hv => hm.vars v ((List.rdropWhile_prefix _ _).subset hv), hm.funcs, hm.returnVal⟩

variable (hD : D.Closed)
include hD

theorem within_evalError (e : GkError) : Gives (Held D.Within past) D.value (evalError e) :=
  .bind (within_change (fun _ => rfl) (fun _ => rfl) (fun _ => rfl) fun _ => rfl) fun _ _ => .pure hD.none

theorem within_unlessError (h : Gives (Held D.Within past) D.value rest) :
    Gives (Held D.Within past) D.value (unlessError rest) :=
  .bind .get fun _ _ => .ite (.pure hD.none) h

theorem within_evalVar : Gives (Held D.Within past) D.value (evalVar n) := by
  refine .bind .get fun s hs => ?_
  cases hfind : findVar s.vars n.strVal with
  | some v =>
    simp only
    exact .pure (hs.now.vars v (List.mem_reverse.mp (List.mem_of_find?_eq_some hfind))).2
  | none => exact within_evalError hD _

theorem within_strictOp (op : TokenType) {l r : Value} (hl : D.value l) (hr : D.value r) :
    Gives (Held D.Within past) D.value (strictOp op l r) := by
  have hkeep : Gives (Held D.Within past) (fun _ => True) (strictOp op l r) := by
    have herror : ∀ e, Gives (Held D.Within past) (fun _ => True) (evalError e) := fun e s hs =>
      ⟨(within_evalError hD e s hs).1, fun _ _ _ => trivial⟩
    have hdiv : ∀ {a b zero result}, Gives (Held D.Within past) (fun _ => True) (divide a b zero result) :=
      .ite (herror _) (.ite (.throw _) (.pure trivial))
    unfold strictOp
    split
    · exact .pure trivial
    · exact .pure trivial
    · exact .pure trivial
    · unfold integerOp
      split
      all_goals first | exact .pure trivial | exact hdiv | exact herror _
    · exact herror _
  exact fun s hs => ⟨(hkeep s hs).1, fun v s' h => hD.strict op l r s v s' hl hr h⟩

theorem within_readLine : Gives (Held D.Within past) D.value readLine :=
  .bind .get fun _ _ => .bind (within_change (fun _ => rfl) (fun _ => rfl) (fun _ => rfl) fun _ =>
    rfl) fun _ _ =>
    .bind (within_gkPrint _) fun _ _ => .pure (hD.line _)

theorem within_evalDef (hn : n ∈ D.nodes) (htype : n.type = .defNode) :
    Gives (Held D.Within past) D.value (evalDef n) := by
  intro s hs
  obtain ⟨-, hrun⟩ | ⟨-, hrun⟩ := evalDef_cases n s
  · rw [hrun]
    exact within_evalError hD _ s hs
  · rw [hrun]
    refine ⟨⟨⟨hs.now.nodes_eq, hs.now.vars, ?_, hs.now.returnVal⟩, hs.moments⟩, fun v s' h => ?_⟩
    · rw [hs.now.nodes_eq]
      exact List.forall_mem_append.mpr ⟨hs.now.funcs, List.forall_mem_singleton.mpr (hD.func n hn htype)⟩
    · cases h
      exact hD.none

theorem within_forLimit {v : Value} (hv : D.value v) (e : GkError) :
    Gives (Held D.Within past) (fun limit => ∀ z ∈ limit, D.value (.int z)) (forLimit v e) := by
  refine .bind .get fun _ _ => .ite (.pure nofun) ?_
  cases v with
  | int limit =>
    refine .pure fun z hz => ?_
    cases hz
    exact hv
  | str | bool | none => exact .bind (within_evalError hD e) fun _ _ => .pure nofun

omit hD in
theorem within_bindParams (ps : List (List UInt8 × Value)) (hps : ∀ p ∈ ps, D.name p.1 ∧ D.value p.2) :
    Gives (Held D.Within past) (fun _ => True) (bindParams ps) := by
  induction ps with
  | nil => exact .pure trivial
  | cons p ps ih =>
    obtain ⟨hp, hps⟩ := List.forall_mem_cons.mp hps
    exact .bind (within_setVar hp.1 hp.2) fun _ _ => .ite (ih hps) (.pure trivial)

omit hD in
theorem within_loopGoesOn : Gives (Held D.Within past) (fun _ => True) loopGoesOn :=
  .bind .get fun _ _ => .ite (.pure trivial) <|
    .ite (.bind (within_change (fun _ => rfl) (fun _ => rfl) (fun _ => rfl) fun _ => rfl) fun _ _ =>
      .pure trivial) <|
      .ite (.bind (within_change (fun _ => rfl) (fun _ => rfl) (fun _ => rfl) fun _ => rfl) fun _ _ =>
        .pure trivial) (.pure trivial)

variable (hev : ∀ i, Gives (Held D.Within past) D.value (ev i))
include hev

theorem within_evalAssign (hname : D.name n.strVal) : Gives (Held D.Within past) D.value (evalAssign ev n) :=
  .bind (hev _) fun _ hv => within_unlessError hD <|
    .bind (within_setVar hname hv) fun _ _ => .ite (.pure hv) (.pure hD.none)

theorem within_evalUnop : Gives (Held D.Within past) D.value (evalUnop ev n) := by
  refine .bind (hev _) fun v _ => within_unlessError hD <| .ite ?_ (.ite (.pure (hD.bool _)) (.pure hD.none))
  cases v with
  | int v => exact .pure (hD.negative v)
  | str | bool | none => exact within_evalError hD _

theorem within_evalBinop : Gives (Held D.Within past) D.value (evalBinop ev n) := by
  have hright : Gives (Held D.Within past) D.value
    (do let r ← ev n.children[1]?; return .bool (isTruthy r) : GkM Value) :=
    .bind (hev _) fun _ _ => .pure (hD.bool _)
  refine .ite ?_ (.ite ?_ ?_)
  · exact .bind (hev _) fun _ _ => .ite hright (.pure (hD.bool _))
  · exact .bind (hev _) fun _ _ => .ite (.pure (hD.bool _)) hright
  · exact .bind (hev _) fun _ hl => within_unlessError hD <| .bind (hev _) fun _ hr =>
      within_unlessError hD (within_strictOp hD _ hl hr)

theorem within_printLoop (cs : List Nat) : Gives (Held D.Within past) D.value (printLoop ev cs) := by
  induction cs with
  | nil => exact .bind (within_gkPrint _) fun _ _ => .pure hD.none
  | cons c cs ih =>
    exact .bind (hev _) fun _ _ => within_unlessError hD <| .bind (within_gkPrint _) fun _ _ => ih

theorem within_evalInput : Gives (Held D.Within past) D.value (evalInput ev n) := by
  unfold evalInput
  cases n.children with
  | nil => exact within_readLine hD
  | cons c cs =>
    exact .bind (hev _) fun _ _ => within_unlessError hD <| .bind (within_gkPrint _) fun _ _ =>
      within_readLine hD

theorem within_evalIntCast : Gives (Held D.Within past) D.value (evalIntCast ev n) := by
  refine .ite (within_evalError hD _) (.bind (hev _) fun v hv => within_unlessError hD ?_)
  cases v with
  | int v => exact .pure hv
  | str str =>
    cases hp : parseInt str with
    | some v =>
      simp only [hp]
      exact .pure (hD.parsed str v hp)
    | none =>
      simp only [hp]
      exact within_evalError hD _
  | bool | none => exact within_evalError hD _

omit hD in
theorem within_blockLoop (cs : List Nat) {last : Value} (hlast : D.value last) :
    Gives (Held D.Within past) D.value (blockLoop ev cs last) := by
  induction cs generalizing last with
  | nil => exact .pure hlast
  | cons c cs ih => exact .bind (hev _) fun _ hv => .bind .get fun _ _ => .ite (.pure hv) (ih hv)

theorem within_evalIf : Gives (Held D.Within past) D.value (evalIf ev n) :=
  .bind (hev _) fun _ _ => within_unlessError hD <| .ite (hev _) (.ite (hev _) (.pure hD.none))

omit hD in
theorem within_whileLoop (fuel : Nat) {result : Value} (hresult : D.value result) :
    Gives (Held D.Within past) D.value (whileLoop ev n fuel result) := by
  induction fuel generalizing result with
  | zero => exact .throw _
  | succ fuel ih =>
    refine .bind (hev _) fun _ _ => .bind .get fun _ _ => .ite (.pure hresult) ?_
    exact .bind (hev _) fun _ hv => .bind within_loopGoesOn fun _ _ => .ite (ih hv) (.pure hv)

theorem within_evalLimit : Gives (Held D.Within past) (fun limit => ∀ z ∈ limit, D.value (.int z))
    (evalLimit ev n) := by
  refine .bind .get fun s _ => ?_
  cases s.nodes[n.children[0]?.getD maxNodes]? with
  | none => exact .throw _
  | some iter =>
    refine .ite (.ite ?_ ?_) ?_
    · exact .bind (within_evalError hD _) fun _ _ => .pure nofun
    · exact .bind (hev _) fun _ hv => within_forLimit hD hv _
    · exact .bind (hev _) fun _ hv => within_forLimit hD hv _

/-- The passes of a loop are counted up to its limit. -/
theorem within_forLoop (hname : D.name n.strVal) (left : Nat) {i : Int} {result : Value}
    (hcount : ∀ j, i ≤ j → j < i + left → D.value (.int j)) (hresult : D.value result) :
    Gives (Held D.Within past) D.value (forLoop ev n left i result) := by
  induction left generalizing i result with
  | zero => exact .pure hresult
  | succ left ih =>
    have hnext : ∀ j, i + 1 ≤ j → j < i + 1 + left → D.value (.int j) :=
      fun j hlo hhi => hcount j (by omega) (by omega)
    refine .bind (within_setVar hname (hcount i (Int.le_refl i) (by omega))) fun _ _ => .ite ?_ (.pure hD.none)
    exact .bind (hev _) fun _ hv => .bind within_loopGoesOn fun _ _ => .ite (ih hnext hv) (.pure hv)

theorem within_evalFor (hname : D.name n.strVal) : Gives (Held D.Within past) D.value (evalFor ev n) := by
  refine .bind (within_evalLimit hD hev) fun limit hlimit => ?_
  cases limit with
  | none => exact .pure hD.none
  | some limit =>
    refine within_forLoop hD hev hname _ (fun j hlo hhi => ?_) hD.none
    exact hD.counter limit j (hlimit limit rfl) hlo (by omega)

omit hD in
theorem within_evalArgs (cs : List Nat) :
    Gives (Held D.Within past) (fun args => ∀ vs ∈ args, ∀ v ∈ vs, D.value v) (evalArgs ev cs) := by
  induction cs with
  | nil =>
    refine .pure fun vs hvs => ?_
    cases hvs
    simp
  | cons c cs ih =>
    refine .bind (hev _) fun v hv => .bind .get fun _ _ => .ite (.pure nofun) (.bind ih fun args hargs => ?_)
    cases args with
    | none => exact .pure nofun
    | some args =>
      refine .pure fun vs hvs => ?_
      cases hvs
      exact List.forall_mem_cons.mpr ⟨hv, hargs args rfl⟩

omit hD in
theorem within_runBody (f : FuncDef) : Gives (Held D.Within past) D.value (runBody ev f) := by
  refine .bind (hev _) fun v hv => .bind .get fun s hs =>
    .bind (within_change (fun _ => rfl) (fun _ => rfl) (fun _ => rfl) fun _ => rfl) fun _ _ =>
      .bind within_popScope fun _ _ => .pure ?_
  split
  · exact hs.now.returnVal
  · exact hv

theorem within_applyFunc {f : FuncDef} {args : List Value} (hf : ∀ p ∈ f.params, D.name p)
    (hargs : ∀ v ∈ args, D.value v) :
    Gives (Held D.Within past) D.value (applyFunc ev f args) := by
  have hdepth : ∀ {g : GkState → GkState}, (∀ m, (g m).vars = m.vars) → (∀ m, (g m).funcs = m.funcs) →
      (∀ m, (g m).returnVal = m.returnVal) → (∀ m, (g m).nodes = m.nodes) →
      Gives (Held D.Within past) (fun _ => True) (update g) := within_change
  have hparams : ∀ p ∈ f.params.zip args, D.name p.1 ∧ D.value p.2 := fun p hp =>
    ⟨hf p.1 (List.of_mem_zip hp).1, hargs p.2 (List.of_mem_zip hp).2⟩
  refine .bind (hdepth (fun _ => rfl) (fun _ => rfl) (fun _ => rfl) fun _ => rfl) fun _ _ =>
    .bind (within_bindParams _ hparams) fun _ _ => .ite ?_ ?_
  · exact .bind (within_runBody hev f) fun _ hv =>
      .bind (hdepth (fun _ => rfl) (fun _ => rfl) (fun _ => rfl) fun _ => rfl) fun _ _ => .pure hv
  · exact .bind (hdepth (fun _ => rfl) (fun _ => rfl) (fun _ => rfl) fun _ => rfl) fun _ _ => .pure hD.none

theorem within_evalCall : Gives (Held D.Within past) D.value (evalCall ev n) := by
  refine .bind .get fun s hs => ?_
  cases hfind : findFunc s.funcs n.strVal with
  | none => exact within_evalError hD _
  | some f =>
    have hf := (hs.now.funcs f (List.mem_of_find?_eq_some hfind)).2
    refine .ite (within_evalError hD _)
      (.ite (within_evalError hD _) (.bind (within_evalArgs hev _) fun args hargs => ?_))
    cases args with
    | none => exact .pure hD.none
    | some args => exact within_applyFunc hD hev hf (hargs args rfl)

theorem within_evalReturn : Gives (Held D.Within past) D.value (evalReturn ev n) := by
  have hset : ∀ {v : Value}, D.value v → Gives (Held D.Within past) D.value (do
      update fun s => { s with returning := true, returnVal := v }
      return v : GkM Value) := fun hv =>
    .bind (held_update fun _ hm => ⟨hm.nodes_eq, hm.vars, hm.funcs, hv⟩) fun _ _ => .pure hv
  unfold evalReturn
  cases n.children with
  | nil => exact hset hD.none
  | cons c cs => exact .bind (hev _) fun _ hv => within_unlessError hD (hset hv)

theorem within_evalNode (hn : n ∈ D.nodes) (fuel : Nat) :
    Gives (Held D.Within past) D.value (evalNode ev fuel n) := by
  unfold evalNode
  cases htype : n.type with
  | int => exact .pure (hD.int n hn htype)
  | str => exact .pure (hD.str n hn htype)
  | bool => exact .pure (hD.bool _)
  | var => exact within_evalVar hD
  | assign => exact within_evalAssign hD hev (hD.name n hn (.inl htype))
  | unop => exact within_evalUnop hD hev
  | binop => exact within_evalBinop hD hev
  | print => exact within_printLoop hD hev _
  | input => exact within_evalInput hD hev
  | intCast => exact within_evalIntCast hD hev
  | block => exact within_blockLoop hev _ hD.none
  | ifNode => exact within_evalIf hD hev
  | whileNode => exact within_whileLoop hev _ hD.none
  | forNode => exact within_evalFor hD hev (hD.name n hn (.inr htype))
  | defNode => exact within_evalDef hD hn htype
  | call => exact within_evalCall hD hev
  | returnNode => exact within_evalReturn hD hev
  | breakNode | continueNode =>
    exact .bind (within_change (fun _ => rfl) (fun _ => rfl) (fun _ => rfl) fun _ => rfl) fun _ _ =>
      .pure hD.none
  | range => exact within_evalError hD _

end

section
variable {D : Domain} {past : List GkState} (hD : D.Closed)
include hD

/-- Every evaluation gives an allowed value and keeps all others so, in all states that it goes through. -/
theorem within_eval (fuel : Nat) (i : Option Nat) : Gives (Held D.Within past) D.value (eval fuel i) := by
  have hat : ∀ {node : Node → GkM Value} (i : Option Nat),
    (∀ n ∈ D.nodes, Gives (Held D.Within past) D.value (node n)) →
      Gives (Held D.Within past) D.value (evalAt node i) := by
    intro node i hnode
    cases i with
    | none => exact .pure hD.none
    | some i =>
      refine within_unlessError hD (.bind .get fun s hs => ?_)
      cases hget : s.nodes[i]? with
      | none => exact .throw _
      | some n => exact hnode n (hs.now.nodes_eq ▸ List.mem_of_getElem? hget)
  induction fuel generalizing i with
  | zero => exact hat i fun _ _ => .throw _
  | succ fuel ih => exact hat i fun n hn => within_evalNode hD ih hn fuel

/-- Every evaluation in a program begins with allowed values. -/
theorem Evaluates.within {via : NodeType → Prop} {fuel fuel' : Nat} {i j : Option Nat} {s t : Run}
    (h : Evaluates via fuel i s fuel' j t) (hs : Held D.Within past s) : Held D.Within past t := by
  refine h.invariant (I := fun _ s => Held D.Within past s) (fun k c n s l u hn he _ hv hs => ?_) hs
  have hmem : n ∈ D.nodes := hs.now.nodes_eq ▸ List.mem_of_getElem? hn
  exact hv.gives (fun ev hev => within_evalNode hD hev hmem k) (within_eval hD k) hs

end

end GeckoOS.Gk
