import GeckoOS.Gk.InterpSteps
import GeckoOS.Lib.Lockstep

/-! Two evaluations of one program run in step, if their states differ in nothing
but variables that the program cannot tell apart. -/
namespace GeckoOS.Gk
open Lib

/-- A run is lost when the fuel of the model or the array of the variables does
not suffice, as far as this is admitted. -/
def Lost (fuel full : Prop) (o : Option Stop) (s : Run) : Prop :=
  (fuel ∧ o = some .outOfFuel) ∨ (full ∧ s.error = some .tooManyVariables)

/-- Outcomes in step; the second run always has fuel enough. -/
abbrev InStep {α : Type} (fuel full : Prop) (R : Run → Run → Prop) (r₁ r₂ : EStateM.Result Stop Run α) : Prop :=
  Alike R (Lost fuel full) (Lost False full) r₁ r₂

/-- A relation that the changes of the state respect, at the depth `d` and above. -/
structure Coupling (fuel full : Prop) (d : Int) (R : Run → Run → Prop) : Prop where
  rest : ∀ {s t}, R s t → t.toGkState = { s.toGkState with vars := t.vars }
  depth : ∀ {s t}, R s t → d ≤ s.callDepth
  change : ∀ {s t} (f : GkState → GkState), (∀ m vs, f { m with vars := vs } = { f m with vars := vs }) →
    (∀ m, (f m).nodes = m.nodes) → d ≤ (f s.toGkState).callDepth → R s t →
    R ⟨f s.toGkState, s.toGkState :: s.past⟩ ⟨f t.toGkState, t.toGkState :: t.past⟩
  set : ∀ {s t}, R s t → ∀ name val, InStep fuel full R (setVar name val s) (setVar name val t)
  pop : ∀ {s t}, R s t → R (final (popScope s)) (final (popScope t))

/-- The search for a name finds the same value in both states, or nothing in both. -/
def FoundAlike (s t : Run) (name : List UInt8) : Prop :=
  (findVar t.vars name).map (·.val) = (findVar s.vars name).map (·.val)

/-! A lost run stays lost: where an error may be overwritten, it is looked at before. -/

section
variable {fuel full : Prop} {α β : Type} {ev : Option Nat → GkM Value} {rest : GkM Value} {n : Node}

private theorem lost_none {s : Run} (h : Lost fuel full none s) : full ∧ s.error = some .tooManyVariables := by
  obtain ⟨-, h⟩ | h := h
  · cases h
  · exact h

private theorem stays_update {f : GkState → GkState} (hf : ∀ m, (f m).error = m.error) :
    Stays (Lost fuel full) (update f) :=
  fun _ h => .inr ⟨(lost_none h).1, (hf _).trans (lost_none h).2⟩

private theorem stays_gkPrint (text : List UInt8) : Stays (Lost fuel full) (gkPrint text) :=
  stays_update fun _ => rfl

/-- Nothing happens after a look at the error. -/
private theorem stays_checked {a : α} {c : Run → Bool} {rest : Run → GkM α} :
    Stays (Lost fuel full) (do let s ← get; if s.error.isSome || c s then return a else rest s) := by
  intro s h
  rw [bind_ok (get_apply s), (lost_none h).2]
  exact h

private theorem stays_unlessError (rest : GkM Value) : Stays (Lost fuel full) (unlessError rest) := by
  intro s h
  rw [unlessError, bind_ok (get_apply s), (lost_none h).2]
  exact h

theorem stays_eval (fuel' : Nat) (i : Option Nat) : Stays (Lost fuel full) (eval fuel' i) := by
  cases fuel' with
  | zero =>
    cases i with
    | none => exact .pure _
    | some i => exact stays_unlessError _
  | succ fuel' =>
    cases i with
    | none => exact .pure _
    | some i => exact stays_unlessError _

private theorem stays_setVar (name : List UInt8) (val : Value) : Stays (Lost fuel full) (setVar name val) := by
  intro s h
  obtain ⟨hfull, he⟩ := lost_none h
  obtain ⟨vs, hs, hrun⟩ | ⟨hs, hroom, hrun⟩ | ⟨hs, _, hrun⟩ := setVar_cases name val s
  · rw [hrun]
    exact .inr ⟨hfull, he⟩
  · rw [hrun]
    exact .inr ⟨hfull, he⟩
  · rw [hrun]
    exact .inr ⟨hfull, rfl⟩

private theorem stays_readLine : Stays (Lost fuel full) readLine :=
  .bind (fun _ h => h) fun _ => .bind (stays_update fun _ => rfl) fun _ =>
    .bind (stays_gkPrint _) fun _ => .pure _

/-- The rest of a loop that goes on only without an error. -/
private theorem stays_goesOn {a : α} {rest : GkM α} :
    Stays (Lost fuel full) (do if ← loopGoesOn then rest else return a) := by
  intro s h
  have hgo : loopGoesOn s = .ok false s := by
    rw [loopGoesOn, bind_ok (get_apply s), (lost_none h).2]
    rfl
  rw [bind_ok hgo]
  exact h

variable (hst : ∀ i, Stays (Lost fuel full) (ev i))
include hst

private theorem stays_printLoop (cs : List Nat) : Stays (Lost fuel full) (printLoop ev cs) := by
  cases cs with
  | nil => exact .bind (stays_gkPrint _) fun _ => .pure _
  | cons c cs => exact .bind (hst _) fun _ => stays_unlessError _

omit hst in
private theorem stays_argsLeft {rest : GkM (Option α)} :
    Stays (Lost fuel full) (do if (← get).error.isSome then return none else rest) := by
  intro s h
  rw [bind_ok (get_apply s), (lost_none h).2]
  exact h

omit hst in
private theorem stays_forLimit (v : Value) (e : GkError) : Stays (Lost fuel full) (forLimit v e) := by
  intro s h
  unfold forLimit
  rw [bind_ok (get_apply s), (lost_none h).2]
  exact h

private theorem stays_forLoop (left : Nat) (i : Int) (result : Value) :
    Stays (Lost fuel full) (forLoop ev n left i result) := by
  cases left with
  | zero => exact .pure _
  | succ left => exact .bind (stays_setVar _ _) fun _ => .ite (.bind (hst _) fun _ => stays_goesOn) (.pure _)

omit hst in
private theorem stays_bindParams (ps : List (List UInt8 × Value)) : Stays (Lost fuel full) (bindParams ps) := by
  induction ps with
  | nil => exact .pure _
  | cons p ps ih => exact .bind (stays_setVar _ _) fun _ => .ite ih (.pure _)

omit hst in
private theorem stays_bodyEnd {result : Value} : Stays (Lost fuel full) (do
    let s ← get
    update fun s => { s with returning := false }
    popScope
    return if s.returning then s.returnVal else result) :=
  .bind (fun _ h => h) fun _ => .bind (stays_update fun _ => rfl) fun _ =>
    .bind (stays_update fun _ => rfl) fun _ => .pure _

private theorem stays_runBody (f : FuncDef) : Stays (Lost fuel full) (runBody ev f) :=
  .bind (hst _) fun _ => stays_bodyEnd

omit hst in
theorem stays_leave (v : Value) : Stays (Lost fuel full) (do leaveCall; return v) :=
  .bind (stays_update fun _ => rfl) fun _ => .pure _

theorem stays_called (f : FuncDef) (b : Bool) : Stays (Lost fuel full) (do
    if b then do
      let result ← runBody ev f
      leaveCall
      return result
    else do
      leaveCall
      return Value.none) :=
  .ite (.bind (stays_runBody hst f) fun _ => stays_leave _) (stays_leave _)

private theorem stays_applyFunc (f : FuncDef) (args : List Value) :
    Stays (Lost fuel full) (applyFunc ev f args) :=
  .bind (stays_update fun _ => rfl) fun _ => .bind (stays_bindParams _) fun b => stays_called hst f b

end

/-! Each function of the interpreter, given that the evaluation of the children is in step. -/

namespace Coupling
variable {fuel full : Prop} {d : Int} {R : Run → Run → Prop} {s t : Run}

theorem error (hC : Coupling fuel full d R) (h : R s t) : t.error = s.error :=
  (congrArg GkState.error (hC.rest h) :)

theorem nodes (hC : Coupling fuel full d R) (h : R s t) : t.nodes = s.nodes :=
  (congrArg GkState.nodes (hC.rest h) :)

theorem callDepth (hC : Coupling fuel full d R) (h : R s t) : t.callDepth = s.callDepth :=
  (congrArg GkState.callDepth (hC.rest h) :)

end Coupling

section
variable {fuel full : Prop} {d : Int} {R : Run → Run → Prop} (hC : Coupling fuel full d R)
  {α : Type} {s t : Run}
  {ev₁ ev₂ : Option Nat → GkM Value} {n : Node} {rest₁ rest₂ : GkM Value} (h : R s t)
include hC h

theorem inStep_update (f : GkState → GkState) (hf : ∀ m vs, f { m with vars := vs } = { f m with vars := vs })
    (hn : ∀ m, (f m).nodes = m.nodes) (hd : (f s.toGkState).callDepth = s.callDepth) :
    InStep fuel full R (update f s) (update f t) :=
  .ok () (hC.change f hf hn (hd ▸ hC.depth h) h)

theorem inStep_changed (f : GkState → GkState) (hf : ∀ m vs, f { m with vars := vs } = { f m with vars := vs })
    (hn : ∀ m, (f m).nodes = m.nodes) (hd : (f s.toGkState).callDepth = s.callDepth) (a : α) :
    InStep fuel full R ((do update f; return a : GkM α) s) ((do update f; return a : GkM α) t) :=
  .ok a (hC.change f hf hn (hd ▸ hC.depth h) h)

theorem inStep_evalError (e : GkError) : InStep fuel full R (evalError e s) (evalError e t) :=
  .ok Value.none (hC.change (fun m => { m with error := some e }) (fun _ _ => rfl) (fun _ => rfl)
    (hC.depth h) h)

theorem inStep_gkPrint (text : List UInt8) : InStep fuel full R (gkPrint text s) (gkPrint text t) :=
  inStep_update hC h _ (fun _ _ => rfl) (fun _ => rfl) rfl

theorem inStep_unlessError (hrest : s.error = none → InStep fuel full R (rest₁ s) (rest₂ t)) :
    InStep fuel full R (unlessError rest₁ s) (unlessError rest₂ t) := by
  rw [unlessError, unlessError, bind_ok (get_apply s), bind_ok (get_apply t), hC.error h]
  cases he : s.error with
  | none => exact hrest he
  | some e => exact .ok _ h

theorem inStep_evalVar (hfind : FoundAlike s t n.strVal) : InStep fuel full R (evalVar n s) (evalVar n t) := by
  unfold FoundAlike at hfind
  rw [evalVar, bind_ok (get_apply s), bind_ok (get_apply t)]
  cases hs : findVar s.vars n.strVal with
  | none =>
    rw [hs] at hfind
    rw [Option.map_eq_none_iff.mp hfind]
    exact inStep_evalError hC h _
  | some v =>
    rw [hs] at hfind
    obtain ⟨w, hw, hval⟩ := Option.map_eq_some_iff.mp hfind
    rw [hw]
    simp only
    rw [hval]
    exact .ok _ h

theorem inStep_strictOp (op : TokenType) (l r : Value) :
    InStep fuel full R (strictOp op l r s) (strictOp op l r t) := by
  have hdiv : ∀ a b zero result, InStep fuel full R (divide a b zero result s) (divide a b zero result t) := by
    intro a b zero result
    rw [divide]
    split
    · exact inStep_evalError hC h _
    · split
      · exact .stop _ h
      · exact .ok _ h
  unfold strictOp
  split
  · exact .ok _ h
  · exact .ok _ h
  · exact .ok _ h
  · unfold integerOp
    split
    all_goals first | exact .ok _ h | exact hdiv _ _ _ _ | exact inStep_evalError hC h _
  · exact inStep_evalError hC h _

theorem inStep_readLine : InStep fuel full R (readLine s) (readLine t) := by
  have hin : t.input = s.input := (congrArg GkState.input (hC.rest h) :)
  rw [readLine, bind_ok (get_apply s), bind_ok (get_apply t), hin]
  refine .bind (inStep_update hC h _ (fun _ _ => rfl) (fun _ => rfl) rfl) (fun _ => ?_)
    (fun _ => ?_) fun _ s' t' _ h' => ?_
  · exact .bind (stays_gkPrint _) fun _ => .pure _
  · exact .bind (stays_gkPrint _) fun _ => .pure _
  · exact .bind (inStep_gkPrint hC h' _) (fun _ => .pure _) (fun _ => .pure _) fun _ _ _ _ h'' => .ok _ h''

/-- The tests behind a loop body, and the passes that are left. -/
theorem inStep_goesOn {a : Value} (hrest : ∀ s' t', R s' t' → InStep fuel full R (rest₁ s') (rest₂ t')) :
    InStep fuel full R ((do if ← loopGoesOn then rest₁ else return a : GkM Value) s)
      ((do if ← loopGoesOn then rest₂ else return a : GkM Value) t) := by
  have hr : t.returning = s.returning := (congrArg GkState.returning (hC.rest h) :)
  have hb : t.breaking = s.breaking := (congrArg GkState.breaking (hC.rest h) :)
  have hc : t.continuing = s.continuing := (congrArg GkState.continuing (hC.rest h) :)
  obtain ⟨b, s', t', hs, ht, h'⟩ : ∃ b s' t', loopGoesOn s = .ok b s' ∧ loopGoesOn t = .ok b t' ∧ R s' t' := by
    rw [loopGoesOn, bind_ok (get_apply s), bind_ok (get_apply t), hC.error h, hr, hb, hc]
    split
    · exact ⟨false, s, t, rfl, rfl, h⟩
    · split
      · exact ⟨false, _, _, rfl, rfl,
          hC.change (fun m => { m with breaking := false }) (fun _ _ => rfl) (fun _ => rfl) (hC.depth h) h⟩
      · split
        · exact ⟨true, _, _, rfl, rfl,
            hC.change (fun m => { m with continuing := false }) (fun _ _ => rfl) (fun _ => rfl) (hC.depth h) h⟩
        · exact ⟨true, s, t, rfl, rfl, h⟩
  rw [bind_ok hs, bind_ok ht]
  cases b with
  | false => exact .ok _ h'
  | true => exact hrest s' t' h'

theorem inStep_forLimit (v : Value) (e : GkError) : InStep fuel full R (forLimit v e s) (forLimit v e t) := by
  unfold forLimit
  rw [bind_ok (get_apply s), bind_ok (get_apply t), hC.error h]
  split
  · exact .ok _ h
  · split
    · exact .ok _ h
    · exact .bind (inStep_evalError hC h e) (fun _ => .pure _) (fun _ => .pure _) fun _ _ _ _ h' => .ok _ h'

theorem inStep_evalDef : InStep fuel full R (evalDef n s) (evalDef n t) := by
  have hf : t.funcs = s.funcs := (congrArg GkState.funcs (hC.rest h) :)
  rw [evalDef, bind_ok (get_apply s), bind_ok (get_apply t), hf, hC.nodes h]
  split
  · exact inStep_evalError hC h _
  · exact inStep_changed hC h _ (by intros; rfl) (by intros; rfl) (by rfl) _

theorem inStep_bindParams (ps : List (List UInt8 × Value)) :
    InStep fuel full R (bindParams ps s) (bindParams ps t) := by
  induction ps generalizing s t with
  | nil => exact .ok _ h
  | cons p ps ih =>
    refine .bind (hC.set h p.1 p.2) (fun _ => ?_) (fun _ => ?_) fun b s' t' _ h' => ?_
    · exact .ite (stays_bindParams ps) (.pure _)
    · exact .ite (stays_bindParams ps) (.pure _)
    · cases b with
      | false => exact .ok _ h'
      | true => exact ih h'

variable (hst₁ : ∀ i, Stays (Lost fuel full) (ev₁ i)) (hst₂ : ∀ i, Stays (Lost False full) (ev₂ i))
  (hev : ∀ i s t, R s t → InStep fuel full R (ev₁ i s) (ev₂ i t))
include hst₁ hst₂ hev

omit hC hst₁ hst₂ in
private theorem inStep_child {i : Option Nat} {k₁ k₂ : Value → GkM α} (hl : ∀ v, Stays (Lost fuel full) (k₁ v))
    (hr : ∀ v, Stays (Lost False full) (k₂ v))
    (hk : ∀ v s' t', R s' t' → InStep fuel full R (k₁ v s') (k₂ v t')) :
    InStep fuel full R ((ev₁ i >>= k₁) s) ((ev₂ i >>= k₂) t) :=
  .bind (hev i s t h) hl hr fun v s' t' _ h' => hk v s' t' h'

omit hst₁ hst₂ in
/-- A child, and the rest unless there is an error. -/
private theorem inStep_checked {i : Option Nat} {k₁ k₂ : Value → GkM Value}
    (hk : ∀ v s' t', R s' t' → s'.error = none → InStep fuel full R (k₁ v s') (k₂ v t')) :
    InStep fuel full R ((do let v ← ev₁ i; unlessError (k₁ v) : GkM Value) s)
      ((do let v ← ev₂ i; unlessError (k₂ v) : GkM Value) t) :=
  inStep_child h hev (fun _ => stays_unlessError _) (fun _ => stays_unlessError _) fun v s' t' h' =>
    inStep_unlessError hC h' fun he => hk v s' t' h' he

omit hst₁ hst₂ in
theorem inStep_evalAssign : InStep fuel full R (evalAssign ev₁ n s) (evalAssign ev₂ n t) := by
  refine inStep_checked hC h hev fun v s' t' h' _ => ?_
  refine .bind (hC.set h' _ _) (fun _ => .ite (.pure _) (.pure _))
    (fun _ => .ite (.pure _) (.pure _)) fun b _ _ _ h'' => ?_
  cases b with
  | false => exact .ok _ h''
  | true => exact .ok _ h''

omit hst₁ hst₂ in
theorem inStep_evalUnop : InStep fuel full R (evalUnop ev₁ n s) (evalUnop ev₂ n t) := by
  refine inStep_checked hC h hev fun v s' t' h' _ => ?_
  split
  · split
    · exact .ok _ h'
    · exact inStep_evalError hC h' _
  · split
    · exact .ok _ h'
    · exact .ok _ h'

theorem inStep_evalBinop : InStep fuel full R (evalBinop ev₁ n s) (evalBinop ev₂ n t) := by
  have hright : ∀ {s t}, R s t →
    InStep fuel full R ((do let r ← ev₁ n.children[1]?; return .bool (isTruthy r) : GkM Value) s)
      ((do let r ← ev₂ n.children[1]?; return .bool (isTruthy r) : GkM Value) t) := fun h' =>
    inStep_child h' hev (fun _ => .pure _) (fun _ => .pure _) fun _ _ _ h'' => .ok _ h''
  rw [evalBinop, evalBinop]
  split
  · refine inStep_child h hev (fun _ => ?_) (fun _ => ?_) fun l s' t' h' => ?_
    · exact .ite (.bind (hst₁ _) fun _ => .pure _) (.pure _)
    · exact .ite (.bind (hst₂ _) fun _ => .pure _) (.pure _)
    · split
      · exact hright h'
      · exact .ok _ h'
  · split
    · refine inStep_child h hev (fun _ => ?_) (fun _ => ?_) fun l s' t' h' => ?_
      · exact .ite (.pure _) (.bind (hst₁ _) fun _ => .pure _)
      · exact .ite (.pure _) (.bind (hst₂ _) fun _ => .pure _)
      · split
        · exact .ok _ h'
        · exact hright h'
    · exact inStep_checked hC h hev fun l s' t' h' _ => inStep_checked hC h' hev fun r s'' t'' h'' _ =>
        inStep_strictOp hC h'' _ _ _

theorem inStep_printLoop (cs : List Nat) : InStep fuel full R (printLoop ev₁ cs s) (printLoop ev₂ cs t) := by
  induction cs generalizing s t with
  | nil => exact .bind (inStep_gkPrint hC h _) (fun _ => .pure _) (fun _ => .pure _) fun _ _ _ _ h' => .ok _ h'
  | cons c cs ih =>
    refine inStep_checked hC h hev fun v s' t' h' _ => ?_
    exact .bind (inStep_gkPrint hC h' _) (fun _ => stays_printLoop hst₁ cs) (fun _ => stays_printLoop hst₂ cs)
      fun _ _ _ _ h'' => ih h''

omit hst₁ hst₂ in
theorem inStep_evalInput : InStep fuel full R (evalInput ev₁ n s) (evalInput ev₂ n t) := by
  unfold evalInput
  cases n.children with
  | nil => exact inStep_readLine hC h
  | cons c cs =>
    refine inStep_checked hC h hev fun v s' t' h' _ => ?_
    exact .bind (inStep_gkPrint hC h' _) (fun _ => stays_readLine) (fun _ => stays_readLine)
      fun _ _ _ _ h'' => inStep_readLine hC h''

omit hst₁ hst₂ in
theorem inStep_evalIntCast : InStep fuel full R (evalIntCast ev₁ n s) (evalIntCast ev₂ n t) := by
  rw [evalIntCast, evalIntCast]
  split
  · exact inStep_evalError hC h _
  · refine inStep_checked hC h hev fun v s' t' h' _ => ?_
    cases v with
    | int v => exact .ok _ h'
    | str str =>
      cases hp : parseInt str with
      | some v =>
        simp only [hp]
        exact .ok _ h'
      | none =>
        simp only [hp]
        exact inStep_evalError hC h' _
    | bool b => exact inStep_evalError hC h' _
    | none => exact inStep_evalError hC h' _

omit hst₁ hst₂ in
theorem inStep_blockLoop (cs : List Nat) (last : Value) :
    InStep fuel full R (blockLoop ev₁ cs last s) (blockLoop ev₂ cs last t) := by
  induction cs generalizing s t last with
  | nil => exact .ok _ h
  | cons c cs ih =>
    refine inStep_child h hev (fun _ => ?_) (fun _ => ?_) fun v s' t' h' => ?_
    · simp only [Bool.or_assoc]
      exact stays_checked
    · simp only [Bool.or_assoc]
      exact stays_checked
    · have hr : t'.returning = s'.returning := (congrArg GkState.returning (hC.rest h') :)
      have hb : t'.breaking = s'.breaking := (congrArg GkState.breaking (hC.rest h') :)
      have hc : t'.continuing = s'.continuing := (congrArg GkState.continuing (hC.rest h') :)
      rw [bind_ok (get_apply s'), bind_ok (get_apply t'), hC.error h', hr, hb, hc]
      split
      · exact .ok _ h'
      · exact ih h' _

omit hst₁ hst₂ in
theorem inStep_evalIf : InStep fuel full R (evalIf ev₁ n s) (evalIf ev₂ n t) := by
  refine inStep_checked hC h hev fun v s' t' h' _ => ?_
  split
  · exact hev _ _ _ h'
  · split
    · exact hev _ _ _ h'
    · exact .ok _ h'

omit hst₁ hst₂ in
theorem inStep_whileLoop {f₁ f₂ : Nat} (hf : f₁ = f₂ ∨ (fuel ∧ f₁ ≤ f₂)) (result : Value) :
    InStep fuel full R (whileLoop ev₁ n f₁ result s) (whileLoop ev₂ n f₂ result t) := by
  induction f₁ generalizing f₂ s t result with
  | zero =>
    obtain rfl | ⟨hfuel, -⟩ := hf
    · exact .stop _ h
    · exact .left (.inl ⟨hfuel, rfl⟩)
  | succ f₁ ih =>
    obtain ⟨f₂, rfl⟩ : ∃ g, f₂ = g + 1 := ⟨f₂ - 1, by omega⟩
    have hf' : f₁ = f₂ ∨ (fuel ∧ f₁ ≤ f₂) := hf.imp (by omega) fun ⟨hfuel, hle⟩ => ⟨hfuel, by omega⟩
    refine inStep_child h hev (fun _ => stays_checked) (fun _ => stays_checked) fun cond s' t' h' => ?_
    rw [bind_ok (get_apply s'), bind_ok (get_apply t'), hC.error h']
    split
    · exact .ok _ h'
    · exact inStep_child h' hev (fun _ => stays_goesOn) (fun _ => stays_goesOn) fun result s'' t'' h'' =>
        inStep_goesOn hC h'' fun s₃ t₃ h₃ => ih h₃ hf' result

omit hst₁ hst₂ in
theorem inStep_evalLimit : InStep fuel full R (evalLimit ev₁ n s) (evalLimit ev₂ n t) := by
  have hchild : ∀ i e, InStep fuel full R ((do let v ← ev₁ i; forLimit v e : GkM (Option Int)) s)
      ((do let v ← ev₂ i; forLimit v e : GkM (Option Int)) t) := fun i e =>
    inStep_child h hev (fun v => stays_forLimit v e) (fun v => stays_forLimit v e) fun v _ _ h' =>
      inStep_forLimit hC h' v e
  rw [evalLimit, evalLimit, bind_ok (get_apply s), bind_ok (get_apply t), hC.nodes h]
  cases hn : s.nodes[n.children[0]?.getD maxNodes]? with
  | none => exact .stop _ h
  | some iter =>
    simp only
    split
    · split
      · exact .bind (inStep_evalError hC h _) (fun _ => .pure _) (fun _ => .pure _) fun _ _ _ _ h' => .ok _ h'
      · exact hchild _ _
    · exact hchild _ _

theorem inStep_forLoop (left : Nat) (i : Int) (result : Value) :
    InStep fuel full R (forLoop ev₁ n left i result s) (forLoop ev₂ n left i result t) := by
  induction left generalizing s t i result with
  | zero => exact .ok _ h
  | succ left ih =>
    refine .bind (hC.set h _ _) (fun _ => ?_) (fun _ => ?_) fun b s' t' _ h' => ?_
    · exact .ite (.bind (hst₁ _) fun _ => stays_goesOn) (.pure _)
    · exact .ite (.bind (hst₂ _) fun _ => stays_goesOn) (.pure _)
    · cases b with
      | false => exact .ok _ h'
      | true =>
        exact inStep_child h' hev (fun _ => stays_goesOn) (fun _ => stays_goesOn) fun result s'' t'' h'' =>
          inStep_goesOn hC h'' fun s₃ t₃ h₃ => ih h₃ _ result

theorem inStep_evalFor : InStep fuel full R (evalFor ev₁ n s) (evalFor ev₂ n t) := by
  refine .bind (inStep_evalLimit hC h hev) (fun limit => ?_) (fun limit => ?_) fun limit s' t' _ h' => ?_
  · cases limit with
    | none => exact .pure _
    | some limit => exact stays_forLoop hst₁ _ _ _
  · cases limit with
    | none => exact .pure _
    | some limit => exact stays_forLoop hst₂ _ _ _
  · cases limit with
    | none => exact .ok _ h'
    | some limit => exact inStep_forLoop hC h' hst₁ hst₂ hev _ _ _

omit hst₁ hst₂ in
theorem inStep_evalArgs (cs : List Nat) : InStep fuel full R (evalArgs ev₁ cs s) (evalArgs ev₂ cs t) := by
  induction cs generalizing s t with
  | nil => exact .ok _ h
  | cons c cs ih =>
    refine inStep_child h hev (fun _ => stays_argsLeft) (fun _ => stays_argsLeft) fun v s' t' h' => ?_
    rw [bind_ok (get_apply s'), bind_ok (get_apply t'), hC.error h']
    split
    · exact .ok _ h'
    · refine .bind (ih h') (fun vs => ?_) (fun vs => ?_) fun vs s'' t'' _ h'' => ?_
      · cases vs with
        | none => exact .pure _
        | some vs => exact .pure _
      · cases vs with
        | none => exact .pure _
        | some vs => exact .pure _
      · cases vs with
        | none => exact .ok _ h''
        | some vs => exact .ok _ h''

omit hst₁ hst₂ in
theorem inStep_evalReturn : InStep fuel full R (evalReturn ev₁ n s) (evalReturn ev₂ n t) := by
  unfold evalReturn
  cases n.children with
  | nil => exact inStep_changed hC h _ (by intros; rfl) (by intros; rfl) (by rfl) _
  | cons c cs =>
    refine inStep_checked hC h hev fun v s' t' h' _ => ?_
    exact inStep_changed hC h' _ (by intros; rfl) (by intros; rfl) (by rfl) _

omit hst₁ hst₂ in
theorem inStep_runBody (f : FuncDef) : InStep fuel full R (runBody ev₁ f s) (runBody ev₂ f t) := by
  refine inStep_child h hev (fun _ => stays_bodyEnd) (fun _ => stays_bodyEnd) fun result s' t' h' => ?_
  have hr : t'.returning = s'.returning := (congrArg GkState.returning (hC.rest h') :)
  have hv : t'.returnVal = s'.returnVal := (congrArg GkState.returnVal (hC.rest h') :)
  rw [bind_ok (get_apply s'), bind_ok (get_apply t'), hr, hv]
  exact .ok _ (hC.pop (hC.change (fun m => { m with returning := false }) (fun _ _ => rfl)
    (fun _ => rfl) (hC.depth h') h'))

section
variable (hd : 0 ≤ d) (hsteps : EvalSteps ev₁)
include hd hsteps

theorem inStep_applyFunc (f : FuncDef) (args : List Value) (he : s.error = none) :
    InStep fuel full R (applyFunc ev₁ f args s) (applyFunc ev₂ f args t) := by
  have hdepth := hC.depth h
  have hleave : ∀ {s' t' : Run} (v : Value), s'.callDepth = s.callDepth + 1 → R s' t' →
      InStep fuel full R ((do leaveCall; return v : GkM Value) s')
        ((do leaveCall; return v : GkM Value) t') := by
    intro s' t' v hd' h'
    exact .ok v (hC.change (fun m => { m with callDepth := m.callDepth - 1 }) (fun _ _ => rfl) (fun _ => rfl)
      (by simp only; omega) h')
  have henter : R ⟨{ s.toGkState with callDepth := s.callDepth + 1 }, s.toGkState :: s.past⟩
      ⟨{ t.toGkState with callDepth := t.callDepth + 1 }, t.toGkState :: t.past⟩ :=
    hC.change (fun m => { m with callDepth := m.callDepth + 1 }) (fun _ _ => rfl) (fun _ => rfl)
      (by simp only; omega) h
  refine .bind (.ok () henter) (fun _ => ?_) (fun _ => ?_) fun u s₁ t₁ hs₁ h₁ => ?_
  · exact .bind (stays_bindParams _) fun b => stays_called hst₁ f b
  · exact .bind (stays_bindParams _) fun b => stays_called hst₂ f b
  cases hs₁
  obtain ⟨hfill, -⟩ := stepped_bindParams (f.params.zip args)
    (s := ⟨{ s.toGkState with callDepth := s.callDepth + 1 }, s.toGkState :: s.past⟩) he
  refine .bind (inStep_bindParams hC h₁ _) (fun b => stays_called hst₁ f b) (fun b => stays_called hst₂ f b)
    fun b s₂ t₂ hs₂ h₂ => ?_
  have hd₂ : s₂.callDepth = s.callDepth + 1 := hfill.ok _ _ hs₂
  cases b with
  | false => exact hleave _ hd₂ h₂
  | true =>
    obtain ⟨hbody, -⟩ := stepped_runBody hsteps (s := s₂) (by omega) f (by omega)
    refine .bind (inStep_runBody hC h₂ hev f) (fun _ => stays_leave _)
      (fun _ => stays_leave _) fun v s₃ t₃ hs₃ h₃ => ?_
    exact hleave v ((hbody.ok _ _ hs₃).trans hd₂) h₃

theorem inStep_evalCall (he : s.error = none) : InStep fuel full R (evalCall ev₁ n s) (evalCall ev₂ n t) := by
  have hf : t.funcs = s.funcs := (congrArg GkState.funcs (hC.rest h) :)
  have hdepth := hC.depth h
  rw [evalCall, evalCall, bind_ok (get_apply s), bind_ok (get_apply t), hf, hC.callDepth h]
  cases hfind : findFunc s.funcs n.strVal with
  | none => exact inStep_evalError hC h _
  | some f =>
    simp only
    split
    · exact inStep_evalError hC h _
    · split
      · exact inStep_evalError hC h _
      · obtain ⟨-, herr⟩ := stepped_evalArgs hsteps (by omega) n.children he
        refine .bind (inStep_evalArgs hC h hev n.children) (fun args => ?_)
          (fun args => ?_) fun args s' t' hs' h' => ?_
        · cases args with
          | none => exact .pure _
          | some args => exact stays_applyFunc hst₁ f args
        · cases args with
          | none => exact .pure _
          | some args => exact stays_applyFunc hst₂ f args
        · cases args with
          | none => exact .ok _ h'
          | some args =>
            exact inStep_applyFunc hC h' hst₁ hst₂ hev hd hsteps f args (herr args s' hs')

theorem inStep_evalNode {f₁ f₂ : Nat} (hf : f₁ = f₂ ∨ (fuel ∧ f₁ ≤ f₂))
    (hfind : n.type = .var → FoundAlike s t n.strVal)
    (he : s.error = none) : InStep fuel full R (evalNode ev₁ f₁ n s) (evalNode ev₂ f₂ n t) := by
  unfold evalNode
  cases ht : n.type with
  | int | str | bool => exact .ok _ h
  | var => exact inStep_evalVar hC h (hfind ht)
  | assign => exact inStep_evalAssign hC h hev
  | unop => exact inStep_evalUnop hC h hev
  | binop => exact inStep_evalBinop hC h hst₁ hst₂ hev
  | print => exact inStep_printLoop hC h hst₁ hst₂ hev _
  | input => exact inStep_evalInput hC h hev
  | intCast => exact inStep_evalIntCast hC h hev
  | block => exact inStep_blockLoop hC h hev _ _
  | ifNode => exact inStep_evalIf hC h hev
  | whileNode => exact inStep_whileLoop hC h hev hf _
  | forNode => exact inStep_evalFor hC h hst₁ hst₂ hev
  | defNode => exact inStep_evalDef hC h
  | call => exact inStep_evalCall hC h hst₁ hst₂ hev hd hsteps he
  | returnNode => exact inStep_evalReturn hC h hev
  | breakNode => exact inStep_changed hC h _ (by intros; rfl) (by intros; rfl) (by rfl) _
  | continueNode => exact inStep_changed hC h _ (by intros; rfl) (by intros; rfl) (by rfl) _
  | range => exact inStep_evalError hC h _

end

end

section
variable {fuel full : Prop} {d : Int} {R : Run → Run → Prop} (hC : Coupling fuel full d R) {s t : Run}
include hC

theorem inStep_evalAt {node₁ node₂ : Node → GkM Value} (h : R s t) (i : Option Nat)
    (hnode : ∀ c ∈ i, ∀ n, s.nodes[c]? = some n → s.error = none → InStep fuel full R (node₁ n s) (node₂ n t)) :
    InStep fuel full R (evalAt node₁ i s) (evalAt node₂ i t) := by
  cases i with
  | none => exact .ok _ h
  | some i =>
    refine inStep_unlessError hC h fun he => ?_
    rw [bind_ok (get_apply s), bind_ok (get_apply t), hC.nodes h]
    cases hn : s.nodes[i]? with
    | none => exact .stop _ h
    | some n => exact hnode i rfl n hn he

/-- Two evaluations run in step from coupled states, the second with the same
fuel or, where a lack of it is admitted, with more. -/
theorem inStep_eval (hd : 0 ≤ d) (hfind : ∀ {s t}, R s t → ∀ name, FoundAlike s t name) {f₁ f₂ : Nat}
    (hf : f₁ = f₂ ∨ (fuel ∧ f₁ ≤ f₂)) : ∀ i s t, R s t → InStep fuel full R (eval f₁ i s) (eval f₂ i t) := by
  induction f₁ generalizing f₂ with
  | zero =>
    intro i s t h
    obtain rfl | ⟨hfuel, -⟩ := hf
    · exact inStep_evalAt hC h i fun _ _ _ _ _ => .stop _ h
    · cases f₂ with
      | zero => exact inStep_evalAt hC h i fun _ _ _ _ _ => .stop _ h
      | succ f₂ => exact inStep_evalAt hC h i fun _ _ _ _ _ => .left (.inl ⟨hfuel, rfl⟩)
  | succ f₁ ih =>
    intro i s t h
    obtain ⟨f₂, rfl⟩ : ∃ g, f₂ = g + 1 := ⟨f₂ - 1, by omega⟩
    have hf' : f₁ = f₂ ∨ (fuel ∧ f₁ ≤ f₂) := hf.imp (by omega) fun ⟨hfuel, hle⟩ => ⟨hfuel, by omega⟩
    refine inStep_evalAt hC h i fun c _ n hn he => ?_
    exact inStep_evalNode hC h (stays_eval f₁) (stays_eval f₂) (ih hf') hd (stepped_eval f₁) hf'
      (fun _ => hfind h _) he

end

/-! More fuel changes nothing but that a run which had too little of it goes on. -/

theorem coupling_eq : Coupling True False 0 fun s t => s = t ∧ 0 ≤ s.callDepth where
  rest := by
    rintro s _ ⟨rfl, -⟩
    rfl
  depth := fun h => h.2
  change := by
    rintro s _ f - - hd ⟨rfl, -⟩
    exact ⟨rfl, hd⟩
  set := by
    rintro s _ ⟨rfl, hd⟩ name val
    obtain ⟨vs, -, hrun⟩ | ⟨-, -, hrun⟩ | ⟨-, -, hrun⟩ := setVar_cases name val s
    all_goals
      rw [hrun]
      exact .ok _ ⟨rfl, hd⟩
  pop := by
    rintro s _ ⟨rfl, hd⟩
    exact ⟨rfl, hd⟩

theorem eval_mono {s : Run} {i : Option Nat} {f g : Nat} (hle : f ≤ g) (hd : 0 ≤ s.callDepth)
    (h : stopOf (eval f i s) ≠ some .outOfFuel) : eval g i s = eval f i s := by
  have hstep := inStep_eval coupling_eq (Int.le_refl 0) (by rintro s _ ⟨rfl, -⟩ _; rfl)
    (.inr ⟨trivial, hle⟩) i s s ⟨rfl, hd⟩
  generalize eval f i s = r₁ at h hstep
  generalize eval g i s = r₂ at hstep
  cases hstep with
  | ok a heq => rw [heq.1]
  | stop e heq => rw [heq.1]
  | left hlost =>
    obtain ⟨-, hlost⟩ | ⟨hlost, -⟩ := hlost
    · exact absurd hlost h
    · exact hlost.elim
  | right hlost =>
    obtain ⟨hlost, -⟩ | ⟨hlost, -⟩ := hlost
    · exact hlost.elim
    · exact hlost.elim

end GeckoOS.Gk
