import GeckoOS.Gk.ControlFlow
import GeckoOS.Gk.ParserTrees

/-! The way back: each run of the interpreter that comes to an end is an
execution of the reference, and both together for a whole program. -/
namespace GeckoOS.Gk
open Lib

/-! No definition stands in the statement. -/
mutual
def Stmt.plain : Stmt → Bool
  | .define _ _ _ => false
  | .ite _ body | .loop _ body | .forIn _ _ body => body.plain
  | .iteElse _ body els => body.plain && els.plain
  | .block sts => plainAll sts
  | .expr _ | .assign _ _ | .ret _ | .brk | .cont => true

def plainAll : List Stmt → Bool
  | [] => true
  | st :: sts => st.plain && plainAll sts
end

variable {nodes : List Node} {σ σ' : Store} {s s' s₁ : Run} {v w : Value} {n : Node} {fuel i c : Nat}
  {e : Expr} {fl : Flow}

/-- The outcomes of an expression. -/
theorem expr_cases (hc : Holds (cell nodes) [e.toTree] [c]) (h : Shows nodes .normal σ s)
    (hrun : eval fuel (some c) s = .ok v s') :
    (∃ x σ', e.denote σ = .error x σ' ∧ Shows nodes (.error x) σ' s') ∨
    ∃ σ', e.denote σ = .value v σ' ∧ Shows nodes .normal σ' s' := by
  have hmean := means_of_ok hc h hrun
  cases he : e.denote σ with
  | trap =>
    rw [he] at hmean
    obtain ⟨_, ⟨⟩⟩ := hmean
  | error x σ' =>
    rw [he] at hmean
    obtain ⟨_, _, ⟨⟩, h'⟩ := hmean
    exact .inl ⟨x, σ', rfl, h'⟩
  | value w σ' =>
    rw [he] at hmean
    obtain ⟨_, ⟨⟩, h'⟩ := hmean
    exact .inr ⟨σ', rfl, h'⟩

/-- The outcomes of a statement that begins with an expression. -/
theorem head_cases {q : Value → GkM Value} (hc : Holds (cell nodes) [e.toTree] [c])
    (h : Shows nodes .normal σ s)
    (hrun : (do let v ← eval fuel (some c); unlessError (q v) : GkM Value) s = .ok w s') :
    (∃ x σ', e.denote σ = .error x σ' ∧ Shows nodes (.error x) σ' s') ∨
    ∃ v σ' s₁, e.denote σ = .value v σ' ∧ Shows nodes .normal σ' s₁ ∧ q v s₁ = .ok w s' := by
  obtain ⟨v, s₁, hv, -⟩ := bind_eq_ok hrun
  obtain ⟨x, σ', he, h₁⟩ | ⟨σ', he, h₁⟩ := expr_cases hc h hv
  · rw [checked_fault hv h₁.error_ne] at hrun
    cases hrun
    exact .inl ⟨x, σ', he, h₁⟩
  · rw [checked_ok hv h₁.error] at hrun
    exact .inr ⟨v, σ', s₁, he, h₁, hrun⟩

/-- The outcomes of the limit of a for loop. -/
theorem limit_cases {iter : Expr} {o : Option Int} (hc : Holds (cell nodes) [iter.toTree] [c])
    (hn : n.children[0]? = some c)
    (h : Shows nodes .normal σ s) (hrun : evalLimit (eval fuel) n s = .ok o s') :
    (∃ x σ', iter.passes σ = .error x σ' ∧ o = none ∧ Shows nodes (.error x) σ' s') ∨
    ∃ k σ', iter.passes σ = .value (.int k) σ' ∧ o = some k ∧ Shows nodes .normal σ' s' := by
  obtain ⟨x, s'', hpass, h'', hall⟩ | ⟨e, c', x, hc', hpass, hall⟩ := evalLimit_cases hc hn h
  · rw [hall fuel] at hrun
    cases hrun
    exact .inl ⟨x, σ, hpass, rfl, h''⟩
  · rw [hall fuel] at hrun
    obtain ⟨v, s₁, hv, -⟩ := bind_eq_ok hrun
    have hmean : Means nodes (e.denote σ) (eval fuel (some c') s) := hv ▸ means_of_ok hc' h hv
    have hlimit := limitMeans_bind x hmean
    rw [hrun, ← hpass] at hlimit
    cases hiter : iter.passes σ with
    | trap =>
      rw [hiter] at hlimit
      obtain ⟨_, ⟨⟩⟩ := hlimit
    | error y σ' =>
      rw [hiter] at hlimit
      obtain ⟨_, ⟨⟩, h'⟩ := hlimit
      exact .inl ⟨y, σ', rfl, rfl, h'⟩
    | value w σ' =>
      rw [hiter] at hlimit
      obtain ⟨k, _, rfl, ⟨⟩, h'⟩ := hlimit
      exact .inr ⟨k, σ', rfl, rfl, h'⟩

/-- What a loop does behind its body. -/
theorem Flow.loop_cases (fl : Flow) : fl.again = true ∨ fl = .brk ∨ fl.exits = true := by
  cases fl <;> simp [again, exits]

/-- This end of the run is the end of an execution. -/
def Task.Ends (nodes : List Node) (t : Task) (σ : Store) (s' : Run) : Prop :=
  ∃ fl σ', Exec t σ fl σ' ∧ Shows nodes fl σ' s'

/-- The interpreter with this fuel only does what the reference does. -/
def Sound (nodes : List Node) (fuel : Nat) : Prop :=
  ∀ st i σ s v s', st.plain = true → Holds (cell nodes) [st.toTree] [i] → Shows nodes .normal σ s →
    eval fuel (some i) s = .ok v s' → (Task.stmt st).Ends nodes σ s'

/-! The loops of the interpreter. -/

section
variable {body : Stmt} {cond : Expr} {name : List UInt8} (hsound : Sound nodes fuel)
include hsound

theorem blockLoop_sound {sts : List Stmt} {cs : List Nat} {last : Value} (hplain : plainAll sts = true)
    (hcs : Holds (cell nodes) (stmtTrees sts) cs) (h : Shows nodes .normal σ s)
    (hrun : blockLoop (eval fuel) cs last s = .ok v s') : (Task.seq sts).Ends nodes σ s' := by
  induction sts generalizing cs last σ s with
  | nil =>
    cases hcs
    cases hrun
    exact ⟨.normal, σ, .seqEnd, h⟩
  | cons st sts ih =>
    rw [plainAll, Bool.and_eq_true] at hplain
    rw [stmtTrees] at hcs
    obtain ⟨c, cs, rfl, hc, hcs⟩ := hcs.uncons
    rw [blockLoop] at hrun
    obtain ⟨w, s₁, hst, hrun⟩ := bind_eq_ok hrun
    obtain ⟨fl, σ₁, hexec, h₁⟩ := hsound st c σ s w s₁ hplain.1 hc h hst
    rw [bind_ok (get_apply s₁), block_stops h₁] at hrun
    by_cases hfl : fl = .normal
    · subst hfl
      obtain ⟨fl', σ', hrest, h'⟩ := ih hplain.2 hcs h₁ hrun
      exact ⟨fl', σ', .seqNext hexec hrest, h'⟩
    · rw [if_pos (decide_eq_true hfl)] at hrun
      cases hrun
      exact ⟨fl, σ₁, .seqStop hexec hfl, h₁⟩

theorem whileLoop_sound {b : Nat} {result : Value} (hplain : body.plain = true)
    (hkids : Holds (cell nodes) [cond.toTree, body.toTree] n.children) (h : Shows nodes .normal σ s)
    (hrun : whileLoop (eval fuel) n b result s = .ok v s') : (Task.loop cond body).Ends nodes σ s' := by
  obtain ⟨c, c', hcs, hc, hc'⟩ := two_children hkids
  induction b generalizing σ s result with
  | zero => cases hrun
  | succ b ih =>
    rw [whileLoop_succ hcs] at hrun
    obtain ⟨w, s₁, hcond, hrun⟩ := bind_eq_ok hrun
    rw [bind_ok (get_apply s₁)] at hrun
    obtain ⟨x, σ₁, he, h₁⟩ | ⟨σ₁, he, h₁⟩ := expr_cases hc h hcond
    · rw [h₁.error] at hrun
      cases hrun
      exact ⟨.error x, σ₁, .fault (congrArg some he), h₁⟩
    · rw [h₁.error] at hrun
      cases hw : isTruthy w with
      | false =>
        rw [hw] at hrun
        cases hrun
        exact ⟨.normal, σ₁, .loopEnd he hw, h₁⟩
      | true =>
        rw [hw] at hrun
        obtain ⟨w', s₂, hbody, hrun⟩ := bind_eq_ok hrun
        obtain ⟨fl, σ₂, hexec, h₂⟩ := hsound body c' σ₁ s₁ w' s₂ hplain hc' h₁ hbody
        obtain hfl | rfl | hfl := fl.loop_cases
        · obtain ⟨s₃, hgo, h₃⟩ := goesOn_again h₂ hfl
          rw [bind_ok hgo] at hrun
          obtain ⟨fl', σ', hrest, h'⟩ := ih h₃ hrun
          exact ⟨fl', σ', .loopNext he hw hexec hfl hrest, h'⟩
        · obtain ⟨s₃, hgo, h₃⟩ := goesOn_brk h₂
          rw [bind_ok hgo] at hrun
          cases hrun
          exact ⟨.normal, σ₂, .loopBreak he hw hexec, h₃⟩
        · rw [bind_ok (goesOn_exits h₂ hfl)] at hrun
          cases hrun
          exact ⟨fl, σ₂, .loopExit he hw hexec hfl, h₂⟩

theorem forLoop_sound {left : Nat} {i limit : Int} {result : Value} (hplain : body.plain = true)
    (hname : n.strVal = name)
    (hn : n.children[1]? = some c) (hc : Holds (cell nodes) [body.toTree] [c]) (h : Shows nodes .normal σ s)
    (hleft : left = (limit - i).toNat) (hrun : forLoop (eval fuel) n left i result s = .ok v s') :
    (Task.passes name body i limit).Ends nodes σ s' := by
  induction left generalizing σ s result i with
  | zero =>
    cases hrun
    exact ⟨.normal, σ, .passesEnd (by omega), h⟩
  | succ left ih =>
    have hi : i < limit := by omega
    rw [forLoop, hname, hn] at hrun
    obtain ⟨σ₁, s₁, hset, hrun₁, h₁⟩ | ⟨s₁, hset, hrun₁, h₁⟩ := h.set name (.int i)
    · rw [bind_ok hrun₁] at hrun
      obtain ⟨w, s₂, hbody, hrun⟩ := bind_eq_ok hrun
      obtain ⟨fl, σ₂, hexec, h₂⟩ := hsound body c σ₁ s₁ w s₂ hplain hc h₁ hbody
      obtain hfl | rfl | hfl := fl.loop_cases
      · obtain ⟨s₃, hgo, h₃⟩ := goesOn_again h₂ hfl
        rw [bind_ok hgo] at hrun
        obtain ⟨fl', σ', hrest, h'⟩ := ih h₃ (by omega) hrun
        exact ⟨fl', σ', .passesNext hi hset hexec hfl hrest, h'⟩
      · obtain ⟨s₃, hgo, h₃⟩ := goesOn_brk h₂
        rw [bind_ok hgo] at hrun
        cases hrun
        exact ⟨.normal, σ₂, .passesBreak hi hset hexec, h₃⟩
      · rw [bind_ok (goesOn_exits h₂ hfl)] at hrun
        cases hrun
        exact ⟨fl, σ₂, .passesExit hi hset hexec hfl, h₂⟩
    · rw [bind_ok hrun₁] at hrun
      cases hrun
      exact ⟨_, σ, .passesFull hi hset, h₁⟩

end

/-- One level of the tree. -/
private theorem ok_node {a : Label} {ts : List (Lib.Tree Label)} (hi : Holds (cell nodes) [.node a ts] [i])
    (h : Shows nodes .normal σ s)
    (hrun : eval (fuel + 1) (some i) s = .ok v s') :
    ∃ n, n.label = a ∧ Holds (cell nodes) ts n.children ∧ evalNode (eval fuel) fuel n s = .ok v s' := by
  obtain ⟨n, hget, hlabel, hkids⟩ := node_of_holds hi
  exact ⟨n, hlabel, hkids, (eval_node (h.nodes_eq.symm ▸ hget) h.error).symm.trans hrun⟩

private theorem eval_zero {t : Lib.Tree Label} (hi : Holds (cell nodes) [t] [i]) (h : Shows nodes .normal σ s) :
    eval 0 (some i) s ≠ .ok v s' := by
  cases t with
  | node a ts =>
    obtain ⟨n, hget, -⟩ := node_of_holds hi
    have he : s.error = none := h.error
    rw [eval, evalAt, unlessError, bind_ok (get_apply s), he]
    simp only [Option.isSome_none, Bool.false_eq_true, if_false]
    rw [bind_ok (get_apply s), h.nodes_eq, hget]
    intro hrun
    cases hrun

/-- The induction is on the fuel: the children of a node get one unit less. -/
theorem sound_eval (nodes : List Node) (fuel : Nat) : Sound nodes fuel := by
  induction fuel with
  | zero =>
    intro st i σ s v s' _ hi h hrun
    exact absurd hrun (eval_zero hi h)
  | succ fuel ih =>
    intro st i σ s v s' hplain hi h hrun
    cases st with
    | define => cases hplain
    | expr e =>
      rw [Stmt.toTree] at hi
      obtain ⟨x, σ', he, h'⟩ | ⟨σ', he, h'⟩ := expr_cases hi h hrun
      · exact ⟨.error x, σ', .fault (congrArg some he), h'⟩
      · exact ⟨.normal, σ', .expr he, h'⟩
    | assign name e =>
      rw [Stmt.toTree] at hi
      obtain ⟨n, hn, hkids, hrun⟩ := ok_node hi h hrun
      have hname : n.strVal = name := congrArg Label.strVal hn
      obtain ⟨c, hcs, hc⟩ := one_child hkids
      rw [evalNode_assign (congrArg Label.type hn :) hcs, hname] at hrun
      obtain ⟨x, σ', he, h'⟩ | ⟨w, σ₁, s₁, he, h₁, hrun⟩ := head_cases hc h hrun
      · exact ⟨.error x, σ', .fault (congrArg some he), h'⟩
      · obtain ⟨σ', s₂, hset, hrun₂, h₂⟩ | ⟨s₂, hset, hrun₂, h₂⟩ := h₁.set name w
        · rw [bind_ok hrun₂] at hrun
          cases hrun
          exact ⟨.normal, σ', .assign he hset, h₂⟩
        · rw [bind_ok hrun₂] at hrun
          cases hrun
          exact ⟨_, σ₁, .assignFull he hset, h₂⟩
    | ret e =>
      cases e with
      | none =>
        rw [Stmt.toTree] at hi
        obtain ⟨n, hn, hkids, hrun⟩ := ok_node hi h hrun
        have ht : n.type = .returnNode := congrArg Label.type hn
        have hcs : n.children = [] := List.length_eq_zero_iff.mp hkids.length_eq.symm
        simp only [evalNode, ht, evalReturn, hcs] at hrun
        cases hrun
        exact ⟨.ret, σ, .retNone, { h with returning := rfl }⟩
      | some e =>
        rw [Stmt.toTree] at hi
        obtain ⟨n, hn, hkids, hrun⟩ := ok_node hi h hrun
        obtain ⟨c, hcs, hc⟩ := one_child hkids
        rw [evalNode_return (congrArg Label.type hn :) hcs] at hrun
        obtain ⟨x, σ', he, h'⟩ | ⟨w, σ₁, s₁, he, h₁, hrun⟩ := head_cases hc h hrun
        · exact ⟨.error x, σ', .fault (congrArg some he), h'⟩
        · cases hrun
          exact ⟨.ret, σ₁, .ret he, { h₁ with returning := rfl }⟩
    | brk =>
      rw [Stmt.toTree] at hi
      obtain ⟨n, hn, -, hrun⟩ := ok_node hi h hrun
      have ht : n.type = .breakNode := congrArg Label.type hn
      simp only [evalNode, ht] at hrun
      cases hrun
      exact ⟨.brk, σ, .brk, { h with breaking := rfl }⟩
    | cont =>
      rw [Stmt.toTree] at hi
      obtain ⟨n, hn, -, hrun⟩ := ok_node hi h hrun
      have ht : n.type = .continueNode := congrArg Label.type hn
      simp only [evalNode, ht] at hrun
      cases hrun
      exact ⟨.cont, σ, .cont, { h with continuing := rfl }⟩
    | ite cond body =>
      rw [Stmt.toTree] at hi
      obtain ⟨n, hn, hkids, hrun⟩ := ok_node hi h hrun
      obtain ⟨c, c', hcs, hc, hc'⟩ := two_children hkids
      rw [evalNode_if (congrArg Label.type hn :) hcs] at hrun
      obtain ⟨x, σ', he, h'⟩ | ⟨w, σ₁, s₁, he, h₁, hrun⟩ := head_cases hc h hrun
      · exact ⟨.error x, σ', .fault (congrArg some he), h'⟩
      · split at hrun
        · next hw =>
          obtain ⟨fl, σ', hexec, h'⟩ := ih body c' σ₁ s₁ v s' hplain hc' h₁ hrun
          exact ⟨fl, σ', .iteTrue he hw hexec, h'⟩
        · next hw =>
          cases hrun
          exact ⟨.normal, σ₁, .iteFalse he (Bool.eq_false_iff.mpr hw), h₁⟩
    | iteElse cond body els =>
      rw [Stmt.plain, Bool.and_eq_true] at hplain
      rw [Stmt.toTree] at hi
      obtain ⟨n, hn, hkids, hrun⟩ := ok_node hi h hrun
      obtain ⟨c, _, hcs, hc, hkids⟩ := hkids.uncons
      obtain ⟨c', c'', rfl, hc', hc''⟩ := two_children hkids
      rw [evalNode_ifElse (congrArg Label.type hn :) hcs] at hrun
      obtain ⟨x, σ', he, h'⟩ | ⟨w, σ₁, s₁, he, h₁, hrun⟩ := head_cases hc h hrun
      · exact ⟨.error x, σ', .fault (congrArg some he), h'⟩
      · split at hrun
        · next hw =>
          obtain ⟨fl, σ', hexec, h'⟩ := ih body c' σ₁ s₁ v s' hplain.1 hc' h₁ hrun
          exact ⟨fl, σ', .elseTrue he hw hexec, h'⟩
        · next hw =>
          obtain ⟨fl, σ', hexec, h'⟩ := ih els c'' σ₁ s₁ v s' hplain.2 hc'' h₁ hrun
          exact ⟨fl, σ', .elseFalse he (Bool.eq_false_iff.mpr hw) hexec, h'⟩
    | loop cond body =>
      rw [Stmt.plain] at hplain
      rw [Stmt.toTree] at hi
      obtain ⟨n, hn, hkids, hrun⟩ := ok_node hi h hrun
      rw [evalNode_while (congrArg Label.type hn :)] at hrun
      obtain ⟨fl, σ', hexec, h'⟩ := whileLoop_sound ih hplain hkids h hrun
      exact ⟨fl, σ', .loop hexec, h'⟩
    | forIn name iter body =>
      rw [Stmt.plain] at hplain
      rw [Stmt.toTree] at hi
      obtain ⟨n, hn, hkids, hrun⟩ := ok_node hi h hrun
      have hname : n.strVal = name := congrArg Label.strVal hn
      obtain ⟨c, c', hcs, hc, hc'⟩ := two_children hkids
      rw [evalNode_for (congrArg Label.type hn :), evalFor] at hrun
      obtain ⟨o, s₁, hlimit, hrun⟩ := bind_eq_ok hrun
      obtain ⟨x, σ', he, rfl, h'⟩ | ⟨k, σ₁, he, rfl, h₁⟩ := limit_cases hc (by rw [hcs]; rfl) h hlimit
      · cases hrun
        exact ⟨.error x, σ', .fault (congrArg some he), h'⟩
      · obtain ⟨fl, σ', hexec, h'⟩ := forLoop_sound ih hplain hname (by rw [hcs]; rfl) hc' h₁
          (by rw [Int.sub_zero]) hrun
        exact ⟨fl, σ', .forIn he hexec, h'⟩
    | block sts =>
      rw [Stmt.toTree] at hi
      obtain ⟨n, hn, hkids, hrun⟩ := ok_node hi h hrun
      rw [evalNode_block (congrArg Label.type hn :)] at hrun
      obtain ⟨fl, σ', hexec, h'⟩ := blockLoop_sound ih hplain hkids h hrun
      exact ⟨fl, σ', .block hexec, h'⟩

/-! A whole program. -/

/-- A state of the interpreter shows one flow and one store. -/
theorem Shows.unique {fl' : Flow} (h : Shows nodes fl σ s) (h' : Shows nodes fl' σ' s) : fl' = fl ∧ σ' = σ := by
  have hfl : fl' = fl := by
    have he : fl'.errorOf = fl.errorOf := h'.error.symm.trans h.error
    have hr : decide (fl' = .ret) = decide (fl = .ret) := h'.returning.symm.trans h.returning
    have hb : decide (fl' = .brk) = decide (fl = .brk) := h'.breaking.symm.trans h.breaking
    have hc : decide (fl' = .cont) = decide (fl = .cont) := h'.continuing.symm.trans h.continuing
    cases fl <;> cases fl' <;> simp_all [Flow.errorOf]
  refine ⟨hfl, ?_⟩
  have hvars : σ'.vars.map (fun x => (⟨x.1, x.2, 0⟩ : Var)) = σ.vars.map fun x => ⟨x.1, x.2, 0⟩ :=
    h'.vars.symm.trans h.vars
  have hin : σ'.input = σ.input := h'.input.symm.trans h.input
  have hout : σ'.output = σ.output := h'.output.symm.trans h.output
  obtain ⟨vars, input, output⟩ := σ
  obtain ⟨vars', input', output'⟩ := σ'
  have hinj : Function.Injective fun x : List UInt8 × Value => (⟨x.1, x.2, 0⟩ : Var) := by
    rintro ⟨a, b⟩ ⟨a', b'⟩ heq
    cases heq
    rfl
  obtain rfl : vars' = vars := List.map_injective_iff.mpr hinj hvars
  obtain rfl : input' = input := hin
  obtain rfl : output' = output := hout
  rfl

/-- The reference is deterministic where it is reached from a state of the interpreter. -/
theorem exec_unique {st : Stmt} {fl' : Flow} {σ₁ σ₂ : Store} (hi : Holds (cell nodes) [st.toTree] [i])
    (h : Shows nodes .normal σ s)
    (h₁ : Exec (.stmt st) σ fl σ₁) (h₂ : Exec (.stmt st) σ fl' σ₂) : fl' = fl ∧ σ₂ = σ₁ := by
  obtain ⟨N, v, s', hrun, hs'⟩ := runs_of_exec h₁ s h i hi
  obtain ⟨M, w, s'', hrun', hs''⟩ := runs_of_exec h₂ s h i hi
  have hsame := (hrun (max N M) (Nat.le_max_left N M)).symm.trans (hrun' (max N M) (Nat.le_max_right N M))
  cases hsame
  exact hs'.unique hs''

section
variable {m : GkState} {src : List UInt8} {s₂ : Run} {root : Nat}

/-- The first store of a program. -/
def GkState.store (m : GkState) : Store := ⟨[], m.input, m.output⟩

/-- The parsed program is ready to be evaluated. -/
theorem shows_parsed (hl : gkLex src (begun m) = .ok () s₁) (hp : gkParse s₁ = .ok root s₂) :
    Shows s₂.nodes .normal m.store s₂ := by
  have hlex := (gkLex_error src (begun m)).1
  rw [hl] at hlex
  have hparse := (walked_gkParse s₁).state.frame
  rw [hp] at hparse
  have hbegun :
    ({ s₁.toGkState with nodes := [], tokens := [], tokPos := 0, error := none } : GkState) = gkInit m :=
    congrArg (fun x : Run => { x.toGkState with nodes := [], tokens := [], tokPos := 0, error := none }) hlex
  have hframe :
    ({ s₂.toGkState with nodes := [], tokens := [], tokPos := 0, error := none } : GkState) = gkInit m :=
    (congrArg (fun x : GkState => { x with nodes := [], tokens := [], tokPos := 0, error := none })
      hparse).trans hbegun
  exact {
    nodes_eq := rfl
    vars := (congrArg GkState.vars hframe :)
    distinct := List.nodup_nil
    funcs := (congrArg GkState.funcs hframe :)
    depth := (congrArg GkState.callDepth hframe :)
    input := (congrArg GkState.input hframe :)
    output := (congrArg GkState.output hframe :)
    error := (parsed_moments hl hp).2 _ List.mem_cons_self
    returning := (congrArg GkState.returning hframe :)
    breaking := (congrArg GkState.breaking hframe :)
    continuing := (congrArg GkState.continuing hframe :) }

/-- The outputs, the variables and the error of both. -/
structure Agrees (fl : Flow) (σ : Store) (m : GkState) : Prop where
  output : m.output = σ.output
  vars : m.vars.map (fun x => (x.name, x.val)) = σ.vars
  error : m.error = fl.errorOf

theorem Shows.agrees (h : Shows nodes fl σ s) : Agrees fl σ s.toGkState := by
  refine ⟨h.output, ?_, h.error⟩
  rw [h.vars, List.map_map]
  exact List.map_id _

/-- A program without definitions ends with some fuel exactly if the reference
has an execution of it; this is then the only one, and both have the same output,
the same variables and the same error. -/
theorem eval_refines (hl : gkLex src (begun m) = .ok () s₁) (hp : gkParse s₁ = .ok root s₂) :
    (∃ sts, Holds (cell s₂.nodes) [(Stmt.block sts).toTree] [root]) ∧
    ∀ sts, Holds (cell s₂.nodes) [(Stmt.block sts).toTree] [root] → plainAll sts = true →
      (∀ fuel v s', eval fuel (some root) s₂ = .ok v s' →
        ∃ fl σ, Agrees fl σ s'.toGkState ∧ ∀ fl' σ', Exec (.stmt (.block sts)) m.store fl' σ' ↔
        fl' = fl ∧ σ' = σ) ∧
      ∀ fl σ, Exec (.stmt (.block sts)) m.store fl σ → ∃ fuel v s', eval fuel (some root) s₂ = .ok v s' := by
  have hs₂ := shows_parsed hl hp
  obtain ⟨rfl, sts, hlaid⟩ := gkParse_tree hp
  refine ⟨⟨sts, hlaid.holds⟩, fun sts hroot hplain => ⟨fun fuel v s' hrun => ?_, fun fl σ hexec => ?_⟩⟩
  · obtain ⟨fl, σ, hexec, h'⟩ := sound_eval s₂.nodes fuel (.block sts) 0 m.store s₂ v s' hplain hroot hs₂ hrun
    refine ⟨fl, σ, h'.agrees, fun fl' σ' => ⟨fun hexec' => exec_unique hroot hs₂ hexec hexec', ?_⟩⟩
    rintro ⟨rfl, rfl⟩
    exact hexec
  · obtain ⟨N, v, s', hrun, -⟩ := runs_of_exec hexec s₂ hs₂ 0 hroot
    exact ⟨N, v, s', hrun N (Nat.le_refl N)⟩

/-- A loop that a break leaves, with a line that is printed behind it. -/
def breakSource : List UInt8 := ascii "while True:\n break\nprint(1)\n"

def breakProgram : List Stmt := [.loop (.bool true) (.block [.brk]), .expr (.call (ascii "print") [.int 1])]

/-- The node array of this program. -/
def breakCells : List (Label × List Nat) :=
  [(.plain .block, [1, 5]), (.plain .whileNode, [2, 3]), (⟨.bool, 1, [], .int⟩, []), (.plain .block, [4]),
    (.plain .breakNode, []),
    (.text .print (ascii "print"), [6]), (⟨.int, 1, [], .int⟩, [])]

/-- The states after lexing, parsing and evaluating, with the root. -/
def finished (fuel : Nat) (src : List UInt8) : Option (Run × Nat × Run × Run) :=
  match gkLex src (begun (freshState [])) with
  | .error _ _ => none
  | .ok _ s₁ =>
    match gkParse s₁ with
    | .error _ _ => none
    | .ok root s₂ =>
      match eval fuel (some root) s₂ with
      | .error _ _ => none
      | .ok _ s' => some (s₁, root, s₂, s')

private theorem finished_eq_some (h : finished fuel src = some (s₁, root, s₂, s')) :
    gkLex src (begun (freshState [])) = .ok () s₁ ∧ gkParse s₁ = .ok root s₂ ∧
    ∃ v, eval fuel (some root) s₂ = .ok v s' := by
  unfold finished at h
  split at h
  · cases h
  · next hl =>
    split at h
    · cases h
    · next hp =>
      split at h
      · cases h
      · next hrun =>
        cases h
        exact ⟨hl, hp, _, hrun⟩

private theorem breakSource_runs : (finished 10 breakSource).any (fun (_, root, s₂, s') => decide (root = 0 ∧
    s₂.nodes.map (fun n => (n.label, n.children)) = breakCells ∧ s'.output = ascii "1\n" ∧
    s'.error = none)) = true := by
  decide +kernel

private theorem holds_breakProgram {ns : List Node} (h : ns.map (fun n => (n.label, n.children)) = breakCells) :
    Holds (cell ns) [(Stmt.block breakProgram).toTree] [0] := by
  have hcell : ∀ i, cell ns i = breakCells[i]? := by
    intro i
    rw [← h, List.getElem?_map]
    rfl
  have hname : callType (ascii "print") = .print := if_pos rfl
  have hbody : Holds (cell ns) [(Stmt.block [.brk]).toTree] [3] :=
    .cons (hcell 3) (.cons (hcell 4) .nil .nil) .nil
  have hprint : Holds (cell ns) [(Expr.call (ascii "print") [.int 1]).toTree] [5] := by
    rw [Expr.toTree, hname]
    exact .cons (hcell 5) (.cons (hcell 6) .nil .nil) .nil
  exact .cons (hcell 0) (.cons (hcell 1) (.cons (hcell 2) .nil hbody) hprint) .nil

theorem eval_refines_break : ∃ s₁ root s₂, gkLex breakSource (begun (freshState [])) = .ok () s₁ ∧
    gkParse s₁ = .ok root s₂ ∧
    Holds (cell s₂.nodes) [(Stmt.block breakProgram).toTree] [root] ∧ plainAll breakProgram = true ∧
    ∃ fl σ, σ.output = ascii "1\n" ∧ fl.errorOf = none ∧
      ∀ fl' σ', Exec (.stmt (.block breakProgram)) (freshState []).store fl' σ' ↔ fl' = fl ∧ σ' = σ := by
  obtain ⟨⟨s₁, root, s₂, s'⟩, hfinished, hall⟩ := (Option.any_eq_true _ _).mp breakSource_runs
  obtain ⟨rfl, hnodes, hout, herror⟩ := of_decide_eq_true hall
  obtain ⟨hl, hp, v, hrun⟩ := finished_eq_some hfinished
  have hroot := holds_breakProgram hnodes
  obtain ⟨fl, σ, hagrees, hexec⟩ := ((eval_refines hl hp).2 breakProgram hroot rfl).1 10 v s' hrun
  exact ⟨s₁, 0, s₂, hl, hp, hroot, rfl, fl, σ, hagrees.output.symm.trans hout,
    hagrees.error.symm.trans herror, hexec⟩

end

end GeckoOS.Gk
