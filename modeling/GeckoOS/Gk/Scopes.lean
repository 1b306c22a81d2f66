import GeckoOS.Gk.Errors
import Mathlib.Data.List.Pairwise

/-! The variables stand in the order of their scopes, and a call leaves those of
its caller as they were. -/
namespace GeckoOS.Gk
open Lib

/-- What holds of the arrays and the depth as long as there is no error. -/
structure Scoped (m : GkState) : Prop where
  sorted : m.vars.Pairwise fun v w => v.scope ≤ w.scope
  scope_le : ∀ v ∈ m.vars, v.scope ≤ m.callDepth
  distinct : (m.vars.map fun v => (v.name, v.scope)).Nodup
  vars_le : m.vars.length ≤ maxVars
  funcs_le : m.funcs.length ≤ maxFuncs
  depth_nonneg : 0 ≤ m.callDepth
  depth_le : m.callDepth ≤ maxCallDepth

variable {m m' : GkState} {s s' : Run} {d e : Int} {name : List UInt8} {val : Value} {l vs : List Var}

/-- Assigning in a scope changes no name and no scope. -/
theorem setInScope_keys (h : setInScope d name val l = some vs) :
    vs.map (fun v => (v.name, v.scope)) = l.map fun v => (v.name, v.scope) := by
  fun_induction setInScope d name val l generalizing vs with
  | case1 => cases h
  | case2 => cases h
  | case3 =>
    cases h
    rfl
  | case4 _ _ _ _ ih =>
    obtain ⟨ws, hws, rfl⟩ := Option.map_eq_some_iff.mp h
    rw [List.map_cons, List.map_cons, ih hws]

/-- Assigning in a scope changes nothing in the scopes outside. -/
theorem setInScope_outside (h : setInScope d name val l = some vs) (he : e ≤ d) :
    vs.filter (fun v => v.scope < e) = l.filter fun v => v.scope < e := by
  fun_induction setInScope d name val l generalizing vs with
  | case1 => cases h
  | case2 => cases h
  | case3 v l hscope =>
    cases h
    have hv : ¬ v.scope < e := fun hlt => hscope (Int.lt_of_lt_of_le hlt he)
    simp [hv]
  | case4 v l _ _ ih =>
    obtain ⟨ws, hws, rfl⟩ := Option.map_eq_some_iff.mp h
    rw [List.filter_cons, List.filter_cons, ih hws]

/-- A name that is not found has no entry in the scope, if the entries are in order. -/
theorem setInScope_none (h : setInScope d name val l = none) (hl : l.Pairwise fun v w => w.scope ≤ v.scope) :
    ∀ v ∈ l, d ≤ v.scope → v.name ≠ name := by
  fun_induction setInScope d name val l with
  | case1 => simp
  | case2 v l hscope =>
    intro w hw hd
    obtain rfl | hw := List.mem_cons.mp hw
    · omega
    · have := (List.pairwise_cons.mp hl).1 w hw
      omega
  | case3 => cases h
  | case4 v l _ hname ih =>
    intro w hw hd
    obtain rfl | hw := List.mem_cons.mp hw
    · exact hname
    · exact ih (Option.map_eq_none_iff.mp h) (List.pairwise_cons.mp hl).2 w hw hd

/-- Dropping a scope drops nothing of those outside. -/
theorem pop_outside (l : List Var) (he : e ≤ d) :
    (l.rdropWhile fun v => d ≤ v.scope).filter (fun v => v.scope < e) = l.filter fun v => v.scope < e := by
  have hdropped : (l.rtakeWhile fun v => d ≤ v.scope).filter (fun v => v.scope < e) = [] := by
    refine List.filter_eq_nil_iff.mpr fun v hv => ?_
    have hle : d ≤ v.scope := by simpa using List.mem_rtakeWhile_imp hv
    simp
    omega
  have hsplit := List.rdropWhile_append_rtakeWhile (p := fun v : Var => d ≤ v.scope) (l := l)
  rw [← congrArg (List.filter fun v : Var => v.scope < e) hsplit, List.filter_append, hdropped, List.append_nil]

/-- The last entry has the highest scope. -/
theorem scope_lt_of_last (hl : l.Pairwise fun v w => v.scope ≤ w.scope)
    (hlast : ∀ v ∈ l.getLast?, v.scope < d) :
    ∀ v ∈ l, v.scope < d := by
  intro v hv
  have hle := hl.rel_getLast_of_rel_getLast_getLast hv (Int.le_refl _)
  exact Int.lt_of_le_of_lt hle (hlast _ (List.getLast?_eq_getLast_of_ne_nil (List.ne_nil_of_mem hv)))

/-- If the entries are in order, nothing else is left. -/
theorem pop_sorted (hl : l.Pairwise fun v w => v.scope ≤ w.scope) :
    (l.rdropWhile fun v => d ≤ v.scope) = l.filter fun v => v.scope < d := by
  have hsub := (List.rdropWhile_prefix (fun v : Var => decide (d ≤ v.scope)) (l := l)).sublist
  have hlt := scope_lt_of_last (d := d) (hl.sublist hsub) fun v hv => by
    obtain ⟨hne, rfl⟩ := List.mem_getLast?_eq_getLast hv
    simpa using List.rdropWhile_last_not _ _ hne
  rw [← pop_outside l (Int.le_refl d), eq_comm, List.filter_eq_self]
  exact fun v hv => decide_eq_true (hlt v hv)

/-- Names and scopes decide about the order and about doubles. -/
private theorem pairwise_of_keys {l l' : List Var}
    (h : l'.map (fun v => (v.name, v.scope)) = l.map fun v => (v.name, v.scope))
    (hl : l.Pairwise fun v w => v.scope ≤ w.scope) : l'.Pairwise fun v w => v.scope ≤ w.scope := by
  have hl' : (l.map fun v => (v.name, v.scope)).Pairwise fun a b => a.2 ≤ b.2 := List.pairwise_map.mpr hl
  rwa [← h, List.pairwise_map] at hl'

namespace Scoped

/-- The other fields do not matter. -/
theorem congr (h : Scoped m) (hvars : m'.vars = m.vars) (hfuncs : m'.funcs = m.funcs)
    (hdepth : m'.callDepth = m.callDepth) :
    Scoped m' := by
  constructor
  · rw [hvars]
    exact h.sorted
  · rw [hvars, hdepth]
    exact h.scope_le
  · rw [hvars]
    exact h.distinct
  · rw [hvars]
    exact h.vars_le
  · rw [hfuncs]
    exact h.funcs_le
  · rw [hdepth]
    exact h.depth_nonneg
  · rw [hdepth]
    exact h.depth_le

theorem assign (h : Scoped m) (hs : setInScope m.callDepth name val m.vars.reverse = some vs) :
    Scoped { m with vars := vs.reverse } := by
  have hkeys : vs.reverse.map (fun v => (v.name, v.scope)) = m.vars.map fun v => (v.name, v.scope) := by
    rw [List.map_reverse, setInScope_keys hs, List.map_reverse, List.reverse_reverse]
  have hlen : vs.reverse.length = m.vars.length := by simpa using congrArg List.length hkeys
  refine ⟨pairwise_of_keys hkeys h.sorted, fun v hv =>
    ?_, ?_, hlen.trans_le h.vars_le, h.funcs_le, h.depth_nonneg, h.depth_le⟩
  · have hmem := List.mem_map_of_mem (f := fun v : Var => (v.name, v.scope)) hv
    rw [hkeys] at hmem
    obtain ⟨w, hw, heq⟩ := List.mem_map.mp hmem
    rw [← (Prod.mk.inj heq).2]
    exact h.scope_le w hw
  · exact hkeys ▸ h.distinct

theorem declare (h : Scoped m) (hs : setInScope m.callDepth name val m.vars.reverse = none)
    (hroom : m.vars.length < maxVars) : Scoped { m with vars := m.vars ++ [⟨name, val, m.callDepth⟩] } := by
  have hnew := setInScope_none hs (List.pairwise_reverse.mpr h.sorted)
  refine ⟨?_, ?_, ?_, ?_, h.funcs_le, h.depth_nonneg, h.depth_le⟩
  · refine List.pairwise_append.mpr ⟨h.sorted, List.pairwise_singleton _ _, fun v hv w hw => ?_⟩
    rw [List.mem_singleton.mp hw]
    exact h.scope_le v hv
  · intro v hv
    obtain hv | hv := List.mem_append.mp hv
    · exact h.scope_le v hv
    · rw [List.mem_singleton.mp hv]
  · rw [List.map_append, List.map_singleton]
    refine h.distinct.append (List.nodup_singleton _) ?_
    rw [List.disjoint_singleton]
    intro hmem
    obtain ⟨w, hw, heq⟩ := List.mem_map.mp hmem
    obtain ⟨hname, hscope⟩ := Prod.mk.inj heq
    exact hnew w (List.mem_reverse.mpr hw) (Int.le_of_eq hscope.symm) hname
  · rw [List.length_append]
    exact hroom

theorem pop (h : Scoped m) : Scoped { m with vars := m.vars.rdropWhile fun v => m.callDepth ≤ v.scope } := by
  have hsub := (List.rdropWhile_prefix (fun v : Var => decide (m.callDepth ≤ v.scope)) (l := m.vars)).sublist
  exact ⟨h.sorted.sublist hsub, fun v hv => h.scope_le v (hsub.subset hv), h.distinct.sublist (hsub.map _),
    hsub.length_le.trans h.vars_le, h.funcs_le, h.depth_nonneg, h.depth_le⟩

theorem leave (h : Scoped m) (hpos : 0 < m.callDepth) (hlast : ∀ v ∈ m.vars.getLast?, v.scope < m.callDepth) :
    Scoped { m with callDepth := m.callDepth - 1 } := by
  have hlt := scope_lt_of_last h.sorted hlast
  exact ⟨h.sorted, fun v hv => Int.le_sub_one_of_lt (hlt v hv), h.distinct, h.vars_le, h.funcs_le,
    Int.le_sub_one_of_lt hpos, Int.le_trans (Int.sub_le_self _ (by decide)) h.depth_le⟩

end Scoped

/-- Every change keeps the order, as long as there is no error. -/
theorem Step.scoped (h : Step m m') (hm : m.error = none → Scoped m) : m'.error = none → Scoped m' := by
  intro he
  cases h with
  | print _ h => exact (hm h).congr rfl rfl rfl
  | read h => exact (hm h).congr rfl rfl rfl
  | fail => cases he
  | assign h hs => exact (hm h).assign hs
  | declare _ h hs hroom => exact (hm h).declare hs hroom
  | define f h hroom =>
    have hs := hm h
    exact ⟨hs.sorted, hs.scope_le, hs.distinct,
      hs.vars_le, by simpa using Nat.succ_le_of_lt hroom, hs.depth_nonneg, hs.depth_le⟩
  | jump => exact (hm he).congr rfl rfl rfl
  | enter h hroom =>
    have hs := hm h
    exact ⟨hs.sorted, fun v hv => Int.le_add_one (hs.scope_le v hv), hs.distinct, hs.vars_le, hs.funcs_le,
      Int.le_add_one hs.depth_nonneg, hroom⟩
  | pop => exact (hm he).pop
  | leave hpos hpop => exact (hm he).leave hpos (hpop he)

/-- What is constant while the depth is `d` or more: the program and the variables of the scopes below. -/
theorem Step.outside (h : Step m m') (hd : d ≤ m.callDepth) :
    m'.nodes = m.nodes ∧ m'.vars.filter (fun v => v.scope < d) = m.vars.filter fun v => v.scope < d := by
  cases h with
  | print | read | fail | define | jump | enter | leave => exact ⟨rfl, rfl⟩
  | assign h hs =>
    have hout := setInScope_outside hs hd
    rw [List.filter_reverse] at hout
    refine ⟨rfl, ?_⟩
    change List.filter _ (List.reverse _) = _
    rw [List.filter_reverse, hout, List.reverse_reverse]
  | declare val h hs hroom =>
    refine ⟨rfl, ?_⟩
    change List.filter _ (_ ++ _) = _
    simp [List.filter_append, hd]
  | pop => exact ⟨rfl, pop_outside _ hd⟩

theorem Steps.outside (h : Steps d s s') (hd : d ≤ s.callDepth) :
    s'.nodes = s.nodes ∧ s'.vars.filter (fun v => v.scope < d) = s.vars.filter fun v => v.scope < d := by
  have hinv : d ≤ s'.callDepth ∧ s'.nodes = s.nodes ∧
      s'.vars.filter (fun v => v.scope < d) = s.vars.filter fun v => v.scope < d := by
    refine h.invariant (P := fun m => d ≤ m.callDepth ∧ m.nodes = s.nodes ∧
      m.vars.filter (fun v => v.scope < d) = s.vars.filter fun v => v.scope < d) ?_ ⟨hd, rfl, rfl⟩
    rintro m m' hstep hd' ⟨hm, hnodes, hvars⟩
    obtain ⟨hnodes', hvars'⟩ := hstep.outside hm
    exact ⟨hd', hnodes'.trans hnodes, hvars'.trans hvars⟩
  exact hinv.2

theorem Steps.scoped (h : Steps d s s') (hs : s.error = none → Scoped s.toGkState) :
    s'.error = none → Scoped s'.toGkState :=
  h.invariant (P := fun m => m.error = none → Scoped m) (fun _ _ hstep _ => hstep.scoped) hs

/-! A call drops exactly what it has added; the arguments, and all other
expressions, add nothing. -/

/-- The nodes that stand for expressions. -/
def NodeType.isExpr : NodeType → Bool
  | .int | .str | .bool | .var | .unop | .binop | .call | .print | .range | .input | .intCast => true
  | _ => false

/-- The node with this index, if it is one, is an expression. -/
def ExprAt (nodes : List Node) (i : Option Nat) : Prop :=
  ∀ c ∈ i, ∃ n, nodes[c]? = some n ∧ n.type.isExpr = true

/-- Only expressions stand below expressions. -/
def ExprNodes (nodes : List Node) : Prop :=
  ∀ n ∈ nodes, n.type.isExpr = true → ∀ c ∈ n.children, ExprAt nodes (some c)

/-- A state from which expressions can be evaluated. -/
structure Ready (nodes : List Node) (s : Run) : Prop where
  order : s.error = none → Scoped s.toGkState
  depth : 0 ≤ s.callDepth
  nodes_eq : s.nodes = nodes

variable {α β : Type} {p : GkM α} {k : α → GkM β} {nodes : List Node} {n : Node} {ev : Option Nat → GkM Value}
  {rest : GkM Value}

theorem Ready.stepped (h : Ready nodes s) (hp : Stepped s (p s)) {a : α} (hrun : p s = .ok a s') :
    Ready nodes s' := by
  have hsteps := hp.steps
  rw [hrun] at hsteps
  refine ⟨hsteps.scoped h.order, ?_, (hsteps.outside (Int.le_refl _)).1.trans h.nodes_eq⟩
  rw [hp.ok a s' hrun]
  exact h.depth

/-- If there is no error at the end, there was none before and the variables are as before. -/
def Quiet (s : Run) (r : EStateM.Result Stop Run α) : Prop :=
  ∀ a s', r = .ok a s' → s'.error = none → s.error = none ∧ s'.vars = s.vars

namespace Quiet

protected theorem bind (hp : Quiet s (p s)) (hk : ∀ a s', p s = .ok a s' → Quiet s' (k a s')) :
  Quiet s ((p >>= k) s) := by
  intro b s'' h he
  obtain ⟨a, s', h₁, h₂⟩ := bind_eq_ok h
  obtain ⟨he', hvars'⟩ := hk a s' h₁ b s'' h₂ he
  obtain ⟨he'', hvars⟩ := hp a s' h₁ he'
  exact ⟨he'', hvars'.trans hvars⟩

protected theorem pure (a : α) (s : Run) : Quiet s ((pure a : GkM α) s) := by
  intro b s' h he
  cases h
  exact ⟨he, rfl⟩

theorem throw (e : Stop) (s : Run) : Quiet s ((throw e : GkM α) s) := by
  intro b s' h
  cases h

theorem evalError (e : GkError) (s : Run) : Quiet s (evalError e s) := by
  intro b s' h he
  cases h
  cases he

theorem gkPrint (text : List UInt8) (s : Run) : Quiet s (gkPrint text s) := by
  intro b s' h he
  cases h
  exact ⟨he, rfl⟩

theorem unlessError (h : s.error = none → Quiet s (rest s)) : Quiet s (unlessError rest s) := by
  rw [Gk.unlessError, bind_ok (get_apply s)]
  cases he : s.error with
  | some e => exact .pure _ _
  | none => exact h he

end Quiet

/-- After a call without an error the variables are those of the caller. -/
theorem quiet_applyFunc (hev : EvalSteps ev) (hr : Ready nodes s) (he : s.error = none)
    (hroom : s.callDepth < maxCallDepth)
    (f : FuncDef) (args : List Value) : Quiet s (applyFunc ev f args s) := by
  intro v s' h he'
  refine ⟨he, ?_⟩
  obtain ⟨u, s₁, h₁, h⟩ := bind_eq_ok h
  have hstep₁ : Steps s.callDepth s s₁ := by
    cases h₁
    exact .tail (.refl s) (.enter he hroom) (Int.le_add_one (Int.le_refl _))
  cases h₁
  obtain ⟨b, s₂, h₂, h⟩ := bind_eq_ok h
  obtain ⟨hbind, herr⟩ := stepped_bindParams (f.params.zip args)
    (s := ⟨{ s.toGkState with callDepth := s.callDepth + 1 }, s.toGkState :: s.past⟩) he
  have hfill := hbind.steps
  rw [h₂] at hfill
  cases b with
  | false =>
    cases h
    exact absurd ((herr _ _ h₂).mpr he') (by decide)
  | true =>
    have hd₂ : s₂.callDepth = s.callDepth + 1 := hbind.ok _ _ h₂
    obtain ⟨w, s₃, h₃, h⟩ := bind_eq_ok h
    obtain ⟨result, s₄, h₄, h₃⟩ := bind_eq_ok h₃
    have hd₀ := hr.depth
    have hbody := hev f.bodyNode s₂ (by omega)
    have hd₄ := hbody.ok _ _ h₄
    have hrun := hbody.steps
    rw [h₄] at hrun
    rw [bind_ok (get_apply s₄)] at h₃
    cases h₃
    cases h
    -- the call from its parameters to the end of the body, at the depth of its own scope
    have hall : Steps (s.callDepth + 1)
      ⟨{ s.toGkState with callDepth := s.callDepth + 1 }, s.toGkState :: s.past⟩ s₄ :=
      hfill.trans (hrun.mono (Int.le_of_eq hd₂.symm))
    have hscoped : Scoped s₄.toGkState :=
      (hstep₁.trans (hall.mono (Int.le_add_one (Int.le_refl _)))).scoped hr.order he'
    have hout := (hall.outside (Int.le_refl _)).2
    have hmine : s.vars.filter (fun v => v.scope < s.callDepth + 1) = s.vars := by
      refine List.filter_eq_self.mpr fun v hv => decide_eq_true ?_
      exact Int.lt_add_one_of_le ((hr.order he).scope_le v hv)
    calc (s₄.vars.rdropWhile fun v => s₄.callDepth ≤ v.scope)
        = s₄.vars.filter fun v => v.scope < s₄.callDepth := pop_sorted hscoped.sorted
      _ = s₄.vars.filter fun v => v.scope < s.callDepth + 1 := by rw [hd₄, hd₂]
      _ = s.vars.filter fun v => v.scope < s.callDepth + 1 := hout
      _ = s.vars := hmine

/-- The evaluation of the expressions below leaves the variables as they are. -/
def ExprQuiet (nodes : List Node) (ev : Option Nat → GkM Value) : Prop :=
  ∀ i s, ExprAt nodes i → Ready nodes s → Quiet s (ev i s)

section
variable (hev : EvalSteps ev) (hq : ExprQuiet nodes ev) (hkids : ∀ c ∈ n.children, ExprAt nodes (some c))
  (hr : Ready nodes s)
include hev hq hr

private theorem quiet_child {i : Option Nat} {k : Value → GkM α} (hi : ExprAt nodes i)
    (hk : ∀ v s', Ready nodes s' → Quiet s' (k v s')) : Quiet s ((ev i >>= k) s) :=
  .bind (hq i s hi hr) fun v s' h => hk v s' (hr.stepped (hev i s hr.depth) h)

omit hev hq hr in
include hkids in
private theorem exprAt_child (j : Nat) : ExprAt nodes n.children[j]? := fun c hc =>
  hkids c (List.mem_of_getElem? hc) c rfl

omit hev hq hr in
theorem quiet_strictOp (op : TokenType) (l r : Value) (s : Run) : Quiet s (strictOp op l r s) := by
  have hdiv : ∀ a b zero result, Quiet s (divide a b zero result s) := by
    intro a b zero result
    rw [divide]
    split
    · exact .evalError _ _
    · split
      · exact .throw _ _
      · exact .pure _ _
  unfold strictOp
  split
  · exact .pure _ _
  · exact .pure _ _
  · exact .pure _ _
  · unfold integerOp
    split
    all_goals first | exact .pure _ _ | exact hdiv _ _ _ _ | exact .evalError _ _
  · exact .evalError _ _

omit hev hq hr in
theorem quiet_evalVar (s : Run) : Quiet s (evalVar n s) := by
  rw [evalVar, bind_ok (get_apply s)]
  cases findVar s.vars n.strVal with
  | some v => exact .pure _ _
  | none => exact .evalError _ _

omit hev hq hr in
theorem quiet_readLine (s : Run) : Quiet s (readLine s) := by
  intro v s' h he
  cases h
  exact ⟨he, rfl⟩

include hkids in
theorem quiet_evalUnop : Quiet s (evalUnop ev n s) := by
  refine quiet_child hev hq hr (exprAt_child hkids 0) fun v s' _ => .unlessError fun _ => ?_
  split
  · split
    · exact .pure _ _
    · exact .evalError _ _
  · split
    · exact .pure _ _
    · exact .pure _ _

include hkids in
theorem quiet_evalBinop : Quiet s (evalBinop ev n s) := by
  have hright : ∀ {s : Run}, Ready nodes s →
      Quiet s ((do let r ← ev n.children[1]?; return .bool (isTruthy r) : GkM Value) s) := fun hr' =>
    quiet_child hev hq hr' (exprAt_child hkids 1) fun _ _ _ => .pure _ _
  rw [evalBinop]
  split
  · refine quiet_child hev hq hr (exprAt_child hkids 0) fun l s' hr' => ?_
    split
    · exact hright hr'
    · exact .pure _ _
  · split
    · refine quiet_child hev hq hr (exprAt_child hkids 0) fun l s' hr' => ?_
      split
      · exact .pure _ _
      · exact hright hr'
    · exact quiet_child hev hq hr (exprAt_child hkids 0) fun l s' hr' => .unlessError fun _ =>
        quiet_child hev hq hr' (exprAt_child hkids 1) fun r s'' _ => .unlessError fun _ =>
          quiet_strictOp _ _ _ _

theorem quiet_printLoop {cs : List Nat} (hcs : ∀ c ∈ cs, ExprAt nodes (some c)) :
    Quiet s (printLoop ev cs s) := by
  induction cs generalizing s with
  | nil => exact .bind (.gkPrint _ _) fun _ _ _ => .pure _ _
  | cons c cs ih =>
    refine quiet_child hev hq hr (hcs c List.mem_cons_self) fun v s' hr' => .unlessError fun _ => ?_
    refine .bind (.gkPrint _ _) fun u s'' h => ?_
    cases h
    refine ih ⟨fun he => ?_, hr'.depth, hr'.nodes_eq⟩ fun c hc => hcs c (List.mem_cons_of_mem _ hc)
    exact (hr'.order he).congr rfl rfl rfl

include hkids in
theorem quiet_evalInput : Quiet s (evalInput ev n s) := by
  unfold evalInput
  cases hn : n.children with
  | nil => exact quiet_readLine s
  | cons c cs =>
    have hc : ExprAt nodes (some c) := hkids c (by rw [hn]; exact List.mem_cons_self)
    exact quiet_child hev hq hr hc fun v s' _ => .unlessError fun _ =>
      .bind (.gkPrint _ _) fun _ s'' _ => quiet_readLine s''

include hkids in
theorem quiet_evalIntCast : Quiet s (evalIntCast ev n s) := by
  rw [evalIntCast]
  split
  · exact .evalError _ _
  · refine quiet_child hev hq hr (exprAt_child hkids 0) fun v s' _ => .unlessError fun _ => ?_
    cases v with
    | int v => exact .pure _ _
    | str str =>
      cases hp : parseInt str with
      | some v =>
        simp only [hp]
        exact .pure _ _
      | none =>
        simp only [hp]
        exact .evalError _ _
    | bool b => exact .evalError _ _
    | none => exact .evalError _ _

theorem quiet_evalArgs {cs : List Nat} (hcs : ∀ c ∈ cs, ExprAt nodes (some c)) :
    Quiet s (evalArgs ev cs s) := by
  induction cs generalizing s with
  | nil => exact .pure _ _
  | cons c cs ih =>
    refine quiet_child hev hq hr (hcs c List.mem_cons_self) fun v s' hr' => ?_
    rw [bind_ok (get_apply s')]
    split
    · exact .pure _ _
    · refine .bind (ih hr' fun c hc => hcs c (List.mem_cons_of_mem _ hc)) fun vs s'' _ => ?_
      cases vs with
      | none => exact .pure _ _
      | some vs => exact .pure _ _

include hkids in
theorem quiet_evalCall (he : s.error = none) : Quiet s (evalCall ev n s) := by
  rw [evalCall, bind_ok (get_apply s)]
  cases hf : findFunc s.funcs n.strVal with
  | none => exact .evalError _ _
  | some f =>
    simp only
    split
    · exact .evalError _ _
    · split
      · exact .evalError _ _
      · next hroom =>
        obtain ⟨hargs, herr⟩ := stepped_evalArgs hev hr.depth n.children he
        refine .bind (quiet_evalArgs hev hq hr hkids) fun args s' h => ?_
        cases args with
        | none => exact .pure _ _
        | some args =>
          have hd' := hargs.ok _ _ h
          exact quiet_applyFunc hev (hr.stepped hargs h) (herr args s' h) (by omega) f args

end

theorem quiet_evalNode (hev : EvalSteps ev) (hq : ExprQuiet nodes ev)
    (hkids : ∀ c ∈ n.children, ExprAt nodes (some c))
    (hr : Ready nodes s) (htype : n.type.isExpr = true) (fuel : Nat) (he : s.error = none) :
    Quiet s (evalNode ev fuel n s) := by
  unfold evalNode
  cases ht : n.type with
  | int | str | bool => exact .pure _ _
  | var => exact quiet_evalVar s
  | unop => exact quiet_evalUnop hev hq hkids hr
  | binop => exact quiet_evalBinop hev hq hkids hr
  | call => exact quiet_evalCall hev hq hkids hr he
  | print => exact quiet_printLoop hev hq hr hkids
  | input => exact quiet_evalInput hev hq hkids hr
  | intCast => exact quiet_evalIntCast hev hq hkids hr
  | range => exact .evalError _ _
  | assign | ifNode | whileNode | forNode | defNode | returnNode | breakNode | continueNode | block =>
    rw [ht] at htype
    cases htype

/-- In a program with nothing but expressions below expressions, these leave the
variables as they are. -/
theorem quiet_eval (hn : ExprNodes nodes) (fuel : Nat) : ExprQuiet nodes (eval fuel) := by
  induction fuel with
  | zero =>
    intro i s _ _
    cases i with
    | none => exact .pure _ _
    | some i =>
      refine .unlessError fun _ => ?_
      rw [bind_ok (get_apply s)]
      cases s.nodes[i]? with
      | none => exact .throw _ _
      | some n => exact .throw _ _
  | succ fuel ih =>
    intro i s hi hr
    cases i with
    | none => exact .pure _ _
    | some i =>
      obtain ⟨n, hget, htype⟩ := hi i rfl
      refine .unlessError fun he => ?_
      rw [bind_ok (get_apply s), hr.nodes_eq, hget]
      exact quiet_evalNode (stepped_eval fuel) ih (hn n (List.mem_of_getElem? hget) htype) hr htype fuel he

/-! What the parser puts below the nodes. -/

/-- The statements whose first child is an expression. -/
def NodeType.hasHead : NodeType → Bool
  | .assign | .ifNode | .whileNode | .forNode | .returnNode => true
  | _ => false

/-- What a node has to do with its children, said of the labels: below expressions
there are only expressions, and all children of a definition but its body are variables. -/
structure Arranged (a : Label) (kids : List Label) : Prop where
  exprs : a.type.isExpr = true → ∀ b ∈ kids, b.type.isExpr = true
  heads : a.type.hasHead = true → ∀ b ∈ kids.head?, b.type.isExpr = true
  params : a.type = .defNode → ∀ b ∈ kids.dropLast, b.type = .var

theorem hasHead_of_isExpr {type : NodeType} (h : type.isExpr = true) : type.hasHead = false := by
  cases type <;> first | rfl | cases h

theorem isExpr_callType (name : List UInt8) : (callType name).isExpr = true := by
  unfold callType
  repeat' split
  all_goals rfl

theorem isExpr_label (e : Expr) : e.toTree.label.type.isExpr = true := by
  cases e with
  | int | str | bool | var | unop | binop => rfl
  | call name => exact isExpr_callType name

theorem isExpr_labels (es : List Expr) : ∀ b ∈ (exprTrees es).map Lib.Tree.label, b.type.isExpr = true := by
  induction es with
  | nil => simp [exprTrees]
  | cons e es ih =>
    rw [exprTrees, List.map_cons]
    exact List.forall_mem_cons.mpr ⟨isExpr_label e, ih⟩

private theorem arranged_leaf (a : Label) : Every Arranged [.node a []] :=
  .cons ⟨by simp, by simp, by simp⟩ .nil .nil

/-- An expression above expressions. -/
private theorem arranged_operator {a : Label} (es : List Expr) (ha : a.type.isExpr = true)
    (hes : Every Arranged (exprTrees es)) :
    Every Arranged [.node a (exprTrees es)] := by
  refine .cons ⟨fun _ => isExpr_labels es, fun h => ?_, fun h => ?_⟩ hes .nil
  · rw [hasHead_of_isExpr ha] at h
    cases h
  · rw [h] at ha
    cases ha

mutual
theorem arranged_expr : (e : Expr) → Every Arranged [e.toTree]
  | .int _ | .str _ | .bool _ | .var _ => arranged_leaf _
  | .unop op e => by
    rw [Expr.toTree]
    exact arranged_operator [e] rfl (arranged_expr e)
  | .binop op l r => by
    rw [Expr.toTree]
    exact arranged_operator [l, r] rfl ((arranged_expr l).append (arranged_expr r))
  | .call name args => by
    rw [Expr.toTree]
    exact arranged_operator args (isExpr_callType name) (arranged_exprs args)

theorem arranged_exprs : (es : List Expr) → Every Arranged (exprTrees es)
  | [] => .nil
  | e :: es => (arranged_expr e).append (arranged_exprs es)
end

private theorem arranged_params (params : List (List UInt8)) : Every Arranged (paramTrees params) := by
  induction params with
  | nil => exact .nil
  | cons p params ih => exact (arranged_leaf _).append ih

/-- A statement that begins with an expression. -/
private theorem arranged_head {a : Label} {e : Expr} {ts : List (Lib.Tree Label)} (ha : a.type.hasHead = true)
    (hts : Every Arranged ts) : Every Arranged [.node a (e.toTree :: ts)] := by
  refine .cons ⟨fun h => ?_, fun _ b hb => ?_, fun h => ?_⟩ ((arranged_expr e).append hts) .nil
  · rw [hasHead_of_isExpr h] at ha
    cases ha
  · cases hb
    exact isExpr_label e
  · rw [h] at ha
    cases ha

private theorem arranged_define (name : List UInt8) (params : List (List UInt8)) {body : Lib.Tree Label}
    (hbody : Every Arranged [body]) : Every Arranged
      [.node (.text .defNode name) (paramTrees params ++ [body])] := by
  refine .cons ⟨nofun, nofun, fun _ b hb => ?_⟩ ((arranged_params params).append hbody) .nil
  rw [List.map_append, List.map_singleton, List.dropLast_concat] at hb
  obtain ⟨t, ht, rfl⟩ := List.mem_map.mp hb
  obtain ⟨p, -, rfl⟩ := List.mem_map.mp ht
  rfl

mutual
theorem arranged_stmt : (st : Stmt) → Every Arranged [st.toTree]
  | .expr e => by
    rw [Stmt.toTree]
    exact arranged_expr e
  | .assign name e => by
    rw [Stmt.toTree]
    exact arranged_head rfl .nil
  | .ret none | .brk | .cont => arranged_leaf _
  | .ret (some e) => by
    rw [Stmt.toTree]
    exact arranged_head rfl .nil
  | .define name params body => by
    rw [Stmt.toTree]
    exact arranged_define name params (arranged_stmt body)
  | .ite cond body => by
    rw [Stmt.toTree]
    exact arranged_head rfl (arranged_stmt body)
  | .iteElse cond body els => by
    rw [Stmt.toTree]
    exact arranged_head rfl ((arranged_stmt body).append (arranged_stmt els))
  | .loop cond body => by
    rw [Stmt.toTree]
    exact arranged_head rfl (arranged_stmt body)
  | .forIn name iter body => by
    rw [Stmt.toTree]
    exact arranged_head rfl (arranged_stmt body)
  | .block stmts => by
    rw [Stmt.toTree]
    exact .cons ⟨nofun, nofun, nofun⟩ (arranged_stmts stmts) .nil

theorem arranged_stmts : (sts : List Stmt) → Every Arranged (stmtTrees sts)
  | [] => .nil
  | st :: sts => (arranged_stmt st).append (arranged_stmts sts)
end

/-- The labels below a node of a parsed program are those of its children. -/
theorem gkParse_arranged {root : Nat} {n : Node} (h : gkParse s = .ok root s') (hn : n ∈ s'.nodes) :
    ∃ kids, Arranged n.label kids ∧
      ∀ (k c : Nat), n.children[k]? = some c → ∃ b, kids[k]? = some b ∧ ∃ x, s'.nodes[c]? = some x ∧
      x.label = b := by
  obtain ⟨-, sts, hl⟩ := gkParse_tree h
  obtain ⟨i, hi⟩ := List.mem_iff_getElem?.mp hn
  obtain ⟨a, children, kids, hcell, ha, hkids⟩ :=
    hl.every (arranged_stmt _) (Nat.zero_le i) (List.getElem?_eq_some_iff.mp hi).1
  rw [cell, hi] at hcell
  cases hcell
  refine ⟨kids, ha, fun k c hc => ?_⟩
  obtain ⟨b, hb, grandkids, hcell⟩ := hkids k c hc
  obtain ⟨x, hx, heq⟩ := Option.map_eq_some_iff.mp hcell
  exact ⟨b, hb, x, hx, (Prod.mk.inj heq).1⟩

theorem gkParse_exprNodes {root : Nat} (h : gkParse s = .ok root s') : ExprNodes s'.nodes := by
  intro n hn htype c hc
  obtain ⟨kids, ha, hkids⟩ := gkParse_arranged h hn
  obtain ⟨k, hk⟩ := List.mem_iff_getElem?.mp hc
  obtain ⟨b, hb, x, hx, rfl⟩ := hkids k c hk
  rintro _ ⟨⟩
  exact ⟨x, hx, ha.exprs htype _ (List.mem_of_getElem? hb)⟩

/-- The parameters of a definition are variables. -/
theorem gkParse_params {root : Nat} {n : Node} (h : gkParse s = .ok root s') (hn : n ∈ s'.nodes)
    (htype : n.type = .defNode) :
    ∀ c ∈ n.children.dropLast, ∃ x, s'.nodes[c]? = some x ∧ x.type = .var := by
  intro c hc
  obtain ⟨kids, ha, hkids⟩ := gkParse_arranged h hn
  obtain ⟨k, hk⟩ := List.mem_iff_getElem?.mp hc
  rw [List.getElem?_dropLast] at hk
  split at hk
  · next hlt =>
    obtain ⟨b, hb, x, hx, rfl⟩ := hkids k c hk
    -- there is one more child, the body
    obtain ⟨b', hb', -⟩ := hkids (k + 1) _ (List.getElem?_eq_getElem (by omega))
    have hlen : k + 1 < kids.length := (List.getElem?_eq_some_iff.mp hb').1
    have hbefore : kids.dropLast[k]? = some x.label := by rw [List.getElem?_dropLast, if_pos (by omega), hb]
    exact ⟨x, hx, ha.params htype _ (List.mem_of_getElem? hbefore)⟩
  · cases hk

/-! The states of a whole run. -/

/-- The states since `s`, this one included. -/
def Run.since (s' s : Run) : List GkState := s'.moments.take (s'.moments.length - s.past.length)

theorem Steps.since {P : GkState → Prop} (h : Steps d s s')
    (hstep : ∀ m m', Step m m' → d ≤ m'.callDepth → P m → P m')
    (hs : P s.toGkState) : ∀ m ∈ s'.since s, P m := by
  obtain ⟨new, hnew, hP⟩ : ∃ new, s'.moments = new ++ s.past ∧ ∀ m ∈ new, P m := by
    induction h with
    | refl => exact ⟨[s.toGkState], rfl, by simpa using hs⟩
    | tail h hm hd ih =>
      obtain ⟨new, hnew, hP⟩ := ih
      refine ⟨_ :: new, congrArg (List.cons _) hnew, List.forall_mem_cons.mpr ⟨?_, hP⟩⟩
      exact hstep _ _ hm hd (h.invariant hstep hs)
  rw [Run.since, hnew, List.length_append, Nat.add_sub_cancel, List.take_left]
  exact hP

theorem scoped_gkInit (m : GkState) : Scoped (gkInit m) := by
  constructor <;> simp [gkInit, maxCallDepth]

variable {root : Nat}

theorem scoped_gkLex (src : List UInt8) (hs : ∀ x ∈ s.moments, Scoped x) :
    ∀ x ∈ (final (gkLex src s)).moments, Scoped x := by
  have hframe := (gkLex_error src s).1
  have hpast : (final (gkLex src s)).past = s.past := (congrArg Run.past hframe :)
  refine List.forall_mem_cons.mpr ⟨?_, fun x hx => hs x (List.mem_cons_of_mem _ (hpast ▸ hx))⟩
  exact (hs _ List.mem_cons_self).congr (congrArg (fun x : Run => x.vars) hframe :)
    (congrArg (fun x : Run => x.funcs) hframe :)
    (congrArg (fun x : Run => x.callDepth) hframe :)

theorem Parsing.scoped (h : Parsing m m') (hm : Scoped m) : Scoped m' :=
  hm.congr (congrArg GkState.vars h.frame :) (congrArg GkState.funcs h.frame :)
    (congrArg GkState.callDepth h.frame :)

theorem scoped_gkParse (hs : ∀ x ∈ s.moments, Scoped x) : ∀ x ∈ (final (gkParse s)).moments, Scoped x := by
  have hw := walked_gkParse s
  have hcleared : Scoped s.cleared.toGkState := (hs _ List.mem_cons_self).congr rfl rfl rfl
  refine List.forall_mem_cons.mpr ⟨hw.state.scoped hcleared, fun x hx => ?_⟩
  obtain hx | ⟨hx, -⟩ := hw.past x hx
  · exact hs x hx
  · exact hx.scoped hcleared

/-- In every state so far that has no error, the variables are in order. -/
def Run.Ordered (s : Run) : Prop := ∀ x ∈ s.moments, x.error = none → Scoped x

theorem ordered_eval (fuel : Nat) (i : Option Nat) (hs : ∀ x ∈ s.moments, Scoped x) :
    (final (eval fuel i s)).Ordered := by
  have hsteps := (stepped_eval fuel i s (hs _ List.mem_cons_self).depth_nonneg).steps
  intro x hx he
  obtain hx | hx := hsteps.moments (P := fun m => m.error = none → Scoped m) (fun _ _ hstep _ => hstep.scoped)
    (fun _ => hs _ List.mem_cons_self) x hx
  · exact hs x (List.mem_cons_of_mem _ hx)
  · exact hx he

private theorem scoped_begun (m : GkState) : ∀ x ∈ (begun m).moments, Scoped x := by
  intro x hx
  obtain rfl : x = gkInit m := by simpa [begun, Run.moments] using hx
  exact scoped_gkInit m

theorem ordered_gkRun (m : GkState) (fuel : Nat) (src : List UInt8) :
    (final (gkRun fuel src (gkInit m).start)).Ordered := by
  have hlex := scoped_gkLex src (scoped_begun m)
  have hparse : ∀ s₁, gkLex src (begun m) = .ok () s₁ → ∀ x ∈ (final (gkParse s₁)).moments, Scoped x := by
    intro s₁ hl
    rw [hl] at hlex
    exact scoped_gkParse (s := s₁) hlex
  refine gkRun_moments (fun x text hx he => (hx he).congr rfl rfl rfl) (fun x hx _ => hlex x hx)
    (fun s₁ hl x hx _ => hparse s₁ hl x hx) fun s₁ s₂ root hl hp => ?_
  have hparse := hparse s₁ hl
  rw [hp] at hparse
  exact ordered_eval (s := s₂) fuel (some root) hparse

/-- In every state of a run that has no error, the variables are in the order of
their scopes and without doubles, and the arrays and the depth are within their
bounds; and a call that is made in any of them and ends without an error leaves
the variables and the depth as they were. -/
theorem gkRun_scopes (m : GkState) (fuel : Nat) (src : List UInt8) :
    (∀ x ∈ (final (gkRun fuel src (gkInit m).start)).moments, x.error = none → Scoped x) ∧
    ∀ s₁ s₂ root, gkLex src (begun m) = .ok () s₁ → gkParse s₁ = .ok root s₂ →
      ∀ x ∈ (final (eval fuel (some root) s₂)).since s₂, x.error = none →
        ∀ i n, x.nodes[i]? = some n → n.type = .call →
          ∀ fuel' v s', eval fuel' (some i) x.start = .ok v s' → s'.error = none →
            s'.vars = x.vars ∧ s'.callDepth = x.callDepth := by
  refine ⟨ordered_gkRun m fuel src, fun s₁ s₂ root hl hp x hx he i n hn htype fuel' v s' hrun he' => ?_⟩
  have hlex := scoped_gkLex src (scoped_begun m)
  rw [hl] at hlex
  have hparse := scoped_gkParse (s := s₁) hlex
  rw [hp] at hparse
  have hs₂ : Scoped s₂.toGkState := hparse _ List.mem_cons_self
  -- the program stays the parsed one
  obtain ⟨hx, hnodes⟩ : Scoped x ∧ x.nodes = s₂.nodes := by
    have hsteps := (stepped_eval fuel (some root) s₂ hs₂.depth_nonneg).steps
    have hinv := hsteps.since (P := fun m => s₂.callDepth ≤ m.callDepth ∧ (m.error = none → Scoped m) ∧
      m.nodes = s₂.nodes)
      (fun m m' hstep hd ⟨hm, hord, hno⟩ => ⟨hd, hstep.scoped hord, (hstep.outside hm).1.trans hno⟩)
      ⟨Int.le_refl _, fun _ => hs₂, rfl⟩ x hx
    exact ⟨hinv.2.1 he, hinv.2.2⟩
  have hr : Ready s₂.nodes x.start := ⟨fun _ => hx, hx.depth_nonneg, hnodes⟩
  have hi : ExprAt s₂.nodes (some i) := by
    rintro c ⟨⟩
    exact ⟨n, hnodes ▸ hn, by rw [htype]; rfl⟩
  obtain ⟨-, hvars⟩ := quiet_eval (gkParse_exprNodes hp) fuel' (some i) x.start hi hr v s' hrun he'
  exact ⟨hvars, (stepped_eval fuel' (some i) x.start hx.depth_nonneg).ok v s' hrun⟩

end GeckoOS.Gk
