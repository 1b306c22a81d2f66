import GeckoOS.Gk.EndToEnd
import GeckoOS.Lib.Contracts
import Mathlib.Tactic.Ring

/-! Programs without while loops come to an end: calls can only be so deep, and a for
loop knows in advance how often it runs. -/
namespace GeckoOS.Gk
open Lib

mutual
def Stmt.whileFree : Stmt → Bool
  | .loop _ _ => false
  | .define _ _ body | .ite _ body | .forIn _ _ body => body.whileFree
  | .iteElse _ body els => body.whileFree && els.whileFree
  | .block sts => allWhileFree sts
  | .expr _ | .assign _ _ | .ret _ | .brk | .cont => true

def allWhileFree : List Stmt → Bool
  | [] => true
  | st :: sts => st.whileFree && allWhileFree sts
end

/-! The height of the syntax trees. -/
mutual
def Expr.height : Expr → Nat
  | .int _ | .str _ | .bool _ | .var _ => 1
  | .unop _ e => e.height + 1
  | .binop _ l r => max l.height r.height + 1
  | .call _ args => heights args + 1

def heights : List Expr → Nat
  | [] => 0
  | e :: es => max e.height (heights es)
end

mutual
def Stmt.height : Stmt → Nat
  | .expr e => e.height
  | .assign _ e | .ret (some e) => e.height + 1
  | .ret none | .brk | .cont => 1
  | .define _ _ body => body.height + 1
  | .ite cond body | .loop cond body => max cond.height body.height + 1
  | .iteElse cond body els => max cond.height (max body.height els.height) + 1
  | .forIn _ iter body => max iter.height body.height + 1
  | .block sts => allHeights sts + 1

def allHeights : List Stmt → Nat
  | [] => 0
  | st :: sts => max st.height (allHeights sts)
end

/-- Worlds in a call of this depth, whose functions are not higher than `H` and have no while loops. -/
structure Bounded (H d : Nat) (w : World) : Prop where
  depth : w.outer.length = d
  funcs : ∀ f ∈ w.funcs, f.2.body.whileFree = true ∧ f.2.body.height ≤ H

abbrev InTime (x : Halt) : Prop := x ≠ .outOfFuel

/-- The program ends, and in the scope in which it began. -/
abbrev Finishes {α : Type} (H d : Nat) (p : Lang α) : Prop :=
  Contract InTime (Bounded H d) (fun _ => Bounded H d) p

variable {H d fuel : Nat} {α : Type} {e : Expr} {es args : List Expr} {st body : Stmt} {sts : List Stmt}
  {ev : Expr → Lang Value} {ex : Stmt → Lang Ending}

theorem height_pos (e : Expr) : 0 < e.height := by
  cases e <;> simp [Expr.height]

theorem le_heights (he : e ∈ es) : e.height ≤ heights es := by
  induction es with
  | nil => cases he
  | cons e' es ih =>
    rw [heights]
    obtain rfl | he := List.mem_cons.mp he
    · exact Nat.le_max_left _ _
    · exact (ih he).trans (Nat.le_max_right _ _)

theorem le_allHeights (hst : st ∈ sts) : st.height ≤ allHeights sts := by
  induction sts with
  | nil => cases hst
  | cons st' sts ih =>
    rw [allHeights]
    obtain rfl | hst := List.mem_cons.mp hst
    · exact Nat.le_max_left _ _
    · exact (ih hst).trans (Nat.le_max_right _ _)

theorem whileFree_of_all (h : allWhileFree sts = true) (hst : st ∈ sts) : st.whileFree = true := by
  induction sts with
  | nil => cases hst
  | cons st' sts ih =>
    rw [allWhileFree, Bool.and_eq_true] at h
    obtain rfl | hst := List.mem_cons.mp hst
    · exact h.1
    · exact ih h.2 hst

namespace Finishes

protected theorem pure (a : α) : Finishes H d (pure a : Lang α) := Contract.pure fun _ h => h

protected theorem error (x : GkError) : Finishes H d (throw (.error x) : Lang α) := .throw (by simp)

protected theorem assign (name : List UInt8) (val : Value) : Finishes H d (assign name val) := by
  refine .get fun w hw => .ite (fun _ => ?_) fun _ => .throw (by simp)
  rintro _ rfl
  exact ⟨hw.depth, hw.funcs⟩

protected theorem assignAll (params : List (List UInt8 × Value)) : Finishes H d (assignAll params) := by
  induction params with
  | nil => exact Finishes.pure ()
  | cons p params ih => exact (Finishes.assign p.1 p.2).bind fun _ => ih

protected theorem say (text : List UInt8) : Finishes H d (say text) := fun _ hw => ⟨hw.depth, hw.funcs⟩

protected theorem ask : Finishes H d ask := by
  refine .get fun w hw => ?_
  rintro _ rfl
  exact ⟨hw.depth, hw.funcs⟩

protected theorem answer (a : Answer) : Finishes H d a.lang := by
  cases a with
  | value v _ => exact Finishes.pure v
  | error x _ => exact Finishes.error x
  | trap => exact .throw (by simp)

end Finishes

/-! ### Expressions -/

theorem finishes_sayAll (hev : ∀ e ∈ args, Finishes H d (ev e)) : Finishes H d (sayAll ev args) := by
  induction args with
  | nil => exact (Finishes.say _).bind fun _ => Finishes.pure _
  | cons e args ih =>
    refine (hev e List.mem_cons_self).bind fun v => (Finishes.say _).bind fun _ => ?_
    exact ih fun e' he' => hev e' (List.mem_cons_of_mem _ he')

theorem finishes_evalAll (hev : ∀ e ∈ args, Finishes H d (ev e)) : Finishes H d (evalAll ev args) := by
  induction args with
  | nil => exact Finishes.pure _
  | cons e args ih =>
    refine (hev e List.mem_cons_self).bind fun v => ?_
    exact Contract.bind (ih fun e' he' => hev e' (List.mem_cons_of_mem _ he')) fun _ => Finishes.pure _

/-- A body runs one call deeper. -/
theorem finishes_inScope (params : List (List UInt8 × Value)) (hbody : Finishes H (d + 1) (ex body)) :
    Finishes H d (inScope ex params body) := by
  refine Contract.bind (J := fun _ => Bounded H (d + 1)) (.modify fun w hw => ⟨?_, hw.funcs⟩) fun _ => ?_
  · rw [List.length_cons, hw.depth]
  refine (Finishes.assignAll params).bind fun _ => hbody.bind fun e => ?_
  refine Contract.bind (J := fun _ => Bounded H d) (.modify fun w hw => ⟨?_, hw.funcs⟩) fun _ => ?_
  · rw [List.length_tail, hw.depth, Nat.add_sub_cancel]
  · cases e with
    | normal | ret | brk | cont => exact Finishes.pure _

/-- The functions that can be called from here have room for their bodies. -/
def BodiesFinish (H d : Nat) (ex : Stmt → Lang Ending) : Prop :=
  ∀ body : Stmt, d < maxCallDepth → body.whileFree = true → body.height ≤ H → Finishes H (d + 1) (ex body)

theorem finishes_callFunc (name : List UInt8) (hev : ∀ e ∈ args, Finishes H d (ev e))
    (hex : BodiesFinish H d ex) :
    Finishes H d (callFunc ev ex name args) := by
  refine .get fun w hw => ?_
  cases hf : w.funcs.lookup name with
  | none => exact .throw (by simp)
  | some f =>
    obtain ⟨before, behind, hfuncs, -⟩ := List.lookup_eq_some_iff.mp hf
    have hin : (name, f) ∈ w.funcs := hfuncs ▸ List.mem_append_right before List.mem_cons_self
    obtain ⟨hfree, hheight⟩ := hw.funcs _ hin
    refine .ite (fun _ => .throw (by simp)) fun _ => .ite (fun _ => .throw (by simp)) fun hdepth => ?_
    rw [hw.depth, Nat.not_le] at hdepth
    refine Contract.strengthen (I := Bounded H d) ?_ ?_
    · exact (finishes_evalAll hev).bind fun vs => finishes_inScope _ (hex f.body hdepth hfree hheight)
    · rintro _ rfl
      exact hw

theorem finishes_exprStep (e : Expr) (hev : ∀ e', e'.height < e.height → Finishes H d (ev e'))
    (hex : BodiesFinish H d ex) :
    Finishes H d (exprStep ev ex e) := by
  cases e with
  | int | str | bool => exact Finishes.pure _
  | var name =>
    refine .get fun w hw => ?_
    cases w.lookup name with
    | none => exact .throw (by simp)
    | some v =>
      rintro _ rfl
      exact hw
  | unop op e => exact (hev e (by simp [Expr.height])).bind fun v => Finishes.answer _
  | binop op l r =>
    have hl : Finishes H d (ev l) := hev l (by rw [Expr.height]; omega)
    have hr : Finishes H d (ev r) := hev r (by rw [Expr.height]; omega)
    have htruth : Finishes H d (do return Value.bool (isTruthy (← ev r))) := hr.bind fun _ => Finishes.pure _
    cases op with
    | and => exact hl.bind fun v => .ite (fun _ => htruth) fun _ => Finishes.pure _
    | or => exact hl.bind fun v => .ite (fun _ => Finishes.pure _) fun _ => htruth
    | mul | div | mod | add | sub | eq | neq | lt | le | gt | ge =>
      exact hl.bind fun v => hr.bind fun w => Finishes.answer _
  | call name args =>
    have hargs : ∀ e ∈ args, Finishes H d (ev e) := fun e he => hev e (by
      have := le_heights he
      rw [Expr.height]
      omega)
    rw [exprStep]
    unfold callStep
    obtain ht | ht | ht | ht | ht := callType_cases name
    · rw [ht]
      exact finishes_sayAll hargs
    · rw [ht]
      exact Finishes.error _
    · rw [ht]
      cases args with
      | nil => exact Finishes.ask
      | cons e args =>
        exact (hargs e List.mem_cons_self).bind fun v => (Finishes.say _).bind fun _ => Finishes.ask
    · rw [ht]
      show Finishes H d (castToInt ev args)
      unfold castToInt
      split
      · exact (hargs _ List.mem_cons_self).bind fun v => Finishes.answer _
      · exact Finishes.error _
    · rw [ht]
      exact finishes_callFunc name hargs hex

/-! ### Statements -/

theorem finishes_limitOf {iter : Expr} (hiter : Finishes H d (ev iter))
    (hev : ∀ e, e.height < iter.height → Finishes H d (ev e)) :
    Finishes H d (limitOf ev iter) := by
  have hcount : ∀ (x : GkError) (v : Value), Finishes H d (passCount x v) := by
    intro x v
    cases v with
    | int n => exact Finishes.pure n
    | str | bool | none => exact Finishes.error x
  have hother : Finishes H d (do passCount .forLimit (← ev iter)) := hiter.bind (hcount .forLimit)
  cases iter with
  | call name args =>
    rw [limitOf]
    refine .ite (fun _ => ?_) fun _ => hother
    cases args with
    | nil => exact Finishes.error _
    | cons e args =>
      refine Contract.bind (hev e ?_) (hcount .rangeArgumentType)
      rw [Expr.height, heights]
      omega
  | int | str | bool | var | unop | binop => exact hother

theorem finishes_sequence (last : Value) (hex : ∀ st ∈ sts, Finishes H d (ex st)) :
    Finishes H d (sequence ex sts last) := by
  induction sts generalizing last with
  | nil => exact Finishes.pure _
  | cons st sts ih =>
    refine (hex st List.mem_cons_self).bind fun e => ?_
    cases e with
    | normal v => exact ih v fun st' hst => hex st' (List.mem_cons_of_mem _ hst)
    | brk | cont | ret => exact Finishes.pure _

theorem finishes_loopFor (name : List UInt8) (hbody : Finishes H d (ex body)) (left : Nat) (i : Int)
    (last : Value) :
    Finishes H d (loopFor ex name body left i last) := by
  induction left generalizing i last with
  | zero => exact Finishes.pure _
  | succ left ih =>
    refine (Finishes.assign name (.int i)).bind fun _ => hbody.bind fun e => ?_
    cases e with
    | normal v => exact ih (i + 1) v
    | cont => exact ih (i + 1) .none
    | brk | ret => exact Finishes.pure _

theorem finishes_stmtStep (st : Stmt) (hfree : st.whileFree = true) (hheight : st.height ≤ H)
    (hev : ∀ e, e.height < st.height → Finishes H d (ev e))
    (hex : ∀ st', st'.height < st.height → st'.whileFree = true → Finishes H d (ex st'))
    (hbodies : BodiesFinish H d ex) :
    Finishes H d (stmtStep ev ex fuel st) := by
  cases st with
  | expr e => exact (finishes_exprStep e hev hbodies).bind fun v => Finishes.pure _
  | assign name e =>
    exact (hev e (by simp [Stmt.height])).bind fun v => (Finishes.assign name v).bind fun _ => Finishes.pure _
  | ret e =>
    cases e with
    | none => exact Finishes.pure _
    | some e => exact (hev e (by simp [Stmt.height])).bind fun v => Finishes.pure _
  | brk | cont => exact Finishes.pure _
  | define name params body =>
    rw [Stmt.whileFree] at hfree
    rw [Stmt.height] at hheight
    refine Contract.bind (J := fun _ => Bounded H d) ?_ fun _ => Finishes.pure _
    refine .get fun w hw => .ite (fun _ => .throw (by simp)) fun _ => ?_
    rintro _ rfl
    refine ⟨hw.depth, fun f hf => ?_⟩
    obtain hf | hf := List.mem_append.mp hf
    · exact hw.funcs f hf
    · obtain rfl := List.mem_singleton.mp hf
      exact ⟨hfree, Nat.le_of_succ_le hheight⟩
  | ite cond body =>
    rw [Stmt.whileFree] at hfree
    have hcond : Finishes H d (ev cond) := hev cond (by rw [Stmt.height]; omega)
    have hbody : Finishes H d (ex body) := hex body (by rw [Stmt.height]; omega) hfree
    exact hcond.bind fun v => .ite (fun _ => hbody) fun _ => Finishes.pure _
  | iteElse cond body els =>
    rw [Stmt.whileFree, Bool.and_eq_true] at hfree
    have hcond : Finishes H d (ev cond) := hev cond (by rw [Stmt.height]; omega)
    have hbody : Finishes H d (ex body) := hex body (by rw [Stmt.height]; omega) hfree.1
    have hels : Finishes H d (ex els) := hex els (by rw [Stmt.height]; omega) hfree.2
    exact hcond.bind fun v => .ite (fun _ => hbody) fun _ => hels
  | loop cond body => cases hfree
  | forIn name iter body =>
    rw [Stmt.whileFree] at hfree
    have hiter : Finishes H d (ev iter) := hev iter (by rw [Stmt.height]; omega)
    have hbelow : ∀ e, e.height < iter.height → Finishes H d (ev e) :=
      fun e he => hev e (by rw [Stmt.height]; omega)
    have hbody : Finishes H d (ex body) := hex body (by rw [Stmt.height]; omega) hfree
    exact (finishes_limitOf hiter hbelow).bind fun n => finishes_loopFor name hbody _ _ _
  | block sts =>
    rw [Stmt.whileFree] at hfree
    refine finishes_sequence _ fun st hst => hex st ?_ (whileFree_of_all hfree hst)
    have := le_allHeights hst
    rw [Stmt.height]
    omega

theorem stmt_height_pos (st : Stmt) : 0 < st.height := by
  cases st with
  | expr e => exact height_pos e
  | ret e => cases e <;> simp [Stmt.height]
  | assign | brk | cont | define | ite | iteElse | loop | forIn | block => simp [Stmt.height]

/-- Fuel for the height of the tree and for the bodies of all calls that can be open at once is enough. -/
theorem finishes_meaning (H fuel : Nat) :
    (∀ d e, e.height + (maxCallDepth - d) * H ≤ fuel → Finishes H d ((meaning fuel).expr e)) ∧
    ∀ d st, st.whileFree = true → st.height ≤ H → st.height + (maxCallDepth - d) * H ≤ fuel →
      Finishes H d ((meaning fuel).stmt st) := by
  induction fuel with
  | zero =>
    refine ⟨fun d e hfuel => ?_, fun d st _ _ hfuel => ?_⟩
    · have := height_pos e
      omega
    · have := stmt_height_pos st
      omega
  | succ fuel ih =>
    obtain ⟨ihe, ihs⟩ := ih
    -- one call deeper there is as much fuel less as a body is high
    have hbodies : ∀ d, (maxCallDepth - d) * H ≤ fuel → BodiesFinish H d (meaning fuel).stmt := by
      intro d hfuel body hd hfree hheight
      refine ihs (d + 1) body hfree hheight ?_
      obtain ⟨k, hk⟩ : ∃ k, maxCallDepth - d = k + 1 := ⟨maxCallDepth - d - 1, by omega⟩
      have hk' : maxCallDepth - (d + 1) = k := by omega
      rw [hk, Nat.succ_mul] at hfuel
      rw [hk']
      omega
    refine ⟨fun d e hfuel => ?_, fun d st hfree hheight hfuel => ?_⟩
    · have := height_pos e
      exact finishes_exprStep e (fun e' he' => ihe d e' (by omega)) (hbodies d (by omega))
    · have := stmt_height_pos st
      exact finishes_stmtStep st hfree hheight (fun e he => ihe d e (by omega))
        (fun st' hst hfree' => ihs d st' hfree' (by omega) (by omega)) (hbodies d (by omega))

/-- A program without while loops ends, however it recurses: with this much fuel its
run is never cut off. -/
theorem gkRun_ends {m : GkState} (h : Writable sts) (hj : allJumpsFit false sts = true)
    (hfree : allWhileFree sts = true)
    (hfuel : (maxCallDepth + 1) * (Stmt.block sts).height ≤ fuel) :
    (behaviour (gkRun fuel (programText sts) (gkInit m).start)).exit ≠ .error .outOfFuel := by
  obtain ⟨s₁, s₂, hl, hp, hopen, -⟩ := h.reads (begun m)
  have hstart : Bounded (Stmt.block sts).height 0 m.world := ⟨rfl, by simp [GkState.world]⟩
  have hroom : (Stmt.block sts).height + (maxCallDepth - 0) * (Stmt.block sts).height ≤ fuel := by
    rw [Nat.sub_zero, Nat.add_comm, ← Nat.succ_mul]
    exact hfuel
  have hstops := (finishes_meaning _ fuel).2 0 (.block sts) hfree (Nat.le_refl _) hroom m.world hstart
  rw [behaviour_of_holds hl hp hopen.close.holds hj fuel, denoteProgram]
  cases hrun : (meaning fuel).stmt (.block sts) m.world with
  | ok e w => simp [expected]
  | error x w =>
    rw [hrun] at hstops
    cases x with
    | error y => simp [expected]
    | trap => simp [expected]
    | outOfFuel => exact absurd rfl hstops

/-- A function that calls itself without end. -/
def endlessProgram : List Stmt :=
  [.define (ascii "f") [] (.block [.ret (some (.call (ascii "f") []))]), .expr (.call (ascii "f") [])]

theorem endlessProgram_writable : Writable endlessProgram where
  fits := by simp [endlessProgram, allFit, Stmt.Fits, Stmt.isBlock, Expr.CallsFit, argsFit, maxChildren]
  filled := by decide
  spelt := by decide +kernel
  shallow := by decide +kernel
  count := by decide
  tokens := by decide +kernel
  nodes := by decide +kernel

theorem gkRun_ends_endless :
    (behaviour (gkRun 165 (programText endlessProgram) (gkInit (freshState [])).start)).exit ≠
      .error .outOfFuel :=
  gkRun_ends endlessProgram_writable (by decide) (by decide) (by decide)

end GeckoOS.Gk
