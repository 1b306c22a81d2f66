import GeckoOS.Gk.Evaluations

/-! What each kind of statement and a call evaluate, and the activation that a call begins. -/
namespace GeckoOS.Gk
open Lib

/-! The condition of a header, the limit of a loop and the value of an assignment
or a return are expressions. -/

/-- What the parser puts below the nodes. -/
structure Formed (nodes : List Node) : Prop where
  exprs : ExprNodes nodes
  heads : ∀ n ∈ nodes, n.type.hasHead = true → ExprAt nodes n.children[0]?

theorem gkParse_formed {s s' : Run} {root : Nat} (h : gkParse s = .ok root s') : Formed s'.nodes := by
  refine ⟨gkParse_exprNodes h, fun n hn htype c hc => ?_⟩
  obtain ⟨kids, ha, hkids⟩ := gkParse_arranged h hn
  obtain ⟨b, hb, x, hx, rfl⟩ := hkids 0 c hc
  rw [← List.head?_eq_getElem?] at hb
  exact ⟨x, hx, ha.heads htype _ hb⟩

/-- Through statements, an expression leads to itself only. -/
theorem Evaluates.of_expr {via : NodeType → Prop} {nodes : List Node} {fuel k : Nat}
    {i j : Option Nat} {s t : Run}
    (h : Evaluates via fuel i s k j t) (hvia : ∀ type, via type → type.isExpr = false)
    (hnodes : s.nodes = nodes)
    (hi : ExprAt nodes i) : i = j ∧ s = t := by
  cases h with
  | refl => exact ⟨rfl, rfl⟩
  | step hvia' hv _ =>
    obtain ⟨c, n, rfl, hn, -⟩ := node_of_visits hv
    obtain ⟨n', hn', hexpr⟩ := hi c rfl
    rw [← hnodes, hn] at hn'
    cases hn'
    rw [hvia _ (hvia' c rfl n hn)] at hexpr
    cases hexpr

/-! What a statement or a call evaluates. -/

/-- A block ends here. -/
def Run.halted (s : Run) : Bool := s.error.isSome || s.returning || s.breaking || s.continuing

section
variable {ev : Option Nat → GkM Value} {s s' t u : Run} {n : Node} {j : Option Nat} {c fuel left : Nat}
  {cs : List Nat}
  {v w last result : Value} {i : Int} {t' : Run} {nodes : List Node}

theorem blockLoop_cons (h : ev (some c) s = .ok v s') :
    blockLoop ev (c :: cs) last s = if s'.halted then .ok v s' else blockLoop ev cs v s' := by
  rw [blockLoop, bind_ok h, bind_ok (get_apply s')]
  unfold Run.halted
  split
  · rfl
  · rfl

theorem visits_blockLoop : Visits (fun ev => blockLoop ev (c :: cs) last) ev s j t ↔
    (some c = j ∧ s = t) ∨ ∃ v s', ev (some c) s = .ok v s' ∧ s'.halted = false ∧
      Visits (fun ev => blockLoop ev cs v) ev s' j t := by
  refine visits_ask_bind.trans
    (or_congr_right (exists_congr fun v => exists_congr fun s' => and_congr_right fun _ => ?_))
  refine visits_act_bind.trans ⟨?_, ?_⟩
  · rintro ⟨x, s₀, hget, h⟩
    cases hget
    have h := visits_ite.mp h
    split at h
    · exact absurd h (not_visits_act _)
    · next hgo => exact ⟨Bool.eq_false_of_not_eq_true hgo, h⟩
  · rintro ⟨hgo, h⟩
    unfold Run.halted at hgo
    refine ⟨s', s', rfl, visits_ite.mpr ?_⟩
    rw [if_neg (Bool.eq_false_iff.mp hgo)]
    exact h

theorem visits_evalIf : Visits (fun ev => evalIf ev n) ev s j t ↔ (n.children[0]? = j ∧ s = t) ∨
    ∃ cond, ev n.children[0]? s = .ok cond t ∧ t.error = none ∧
      if isTruthy cond then n.children[1]? = j else n.children.length = 3 ∧ n.children[2]? = j := by
  have hask : ∀ {k : Option Nat} {s' : Run}, Visits (fun ev => ev k) ev s' j t ↔ k = j ∧ s' = t := by
    intro k s'
    constructor
    · intro h
      exact h.of_ask
    · rintro ⟨rfl, rfl⟩
      exact Visits.ask _ _ _
  refine visits_ask_bind.trans (or_congr_right ⟨?_, ?_⟩)
  · rintro ⟨cond, s', hrun, h⟩
    obtain ⟨he, h⟩ := visits_unlessError.mp h
    have h := visits_ite.mp h
    refine ⟨cond, ?_⟩
    split at h
    · next hc =>
      obtain ⟨hj, rfl⟩ := hask.mp h
      exact ⟨hrun, he, by rwa [if_pos hc]⟩
    · next hc =>
      have h := visits_ite.mp h
      split at h
      · next hlen =>
        obtain ⟨hj, rfl⟩ := hask.mp h
        exact ⟨hrun, he, by rw [if_neg hc]; exact ⟨hlen, hj⟩⟩
      · exact absurd h (not_visits_act _)
  · rintro ⟨cond, hrun, he, h⟩
    refine ⟨cond, t, hrun, visits_unlessError.mpr ⟨he, visits_ite.mpr ?_⟩⟩
    split at h
    · next hc =>
      rw [if_pos hc]
      exact hask.mpr ⟨h, rfl⟩
    · next hc =>
      rw [if_neg hc]
      exact visits_ite.mpr (by rw [if_pos h.1]; exact hask.mpr ⟨h.2, rfl⟩)

/-- A block ends with a statement that halts it. -/
theorem blockLoop_halts (hv : Visits (fun ev => blockLoop ev cs last) ev s j t) (h : ev j t = .ok w t')
    (hhalt : t'.halted = true) :
    blockLoop ev cs last s = .ok w t' := by
  induction cs generalizing s last with
  | nil => exact absurd hv (not_visits_act _)
  | cons c cs ih =>
    obtain ⟨rfl, rfl⟩ | ⟨v, s₁, hrun, hgo, hv⟩ := visits_blockLoop.mp hv
    · rw [blockLoop_cons h, if_pos hhalt]
    · rw [blockLoop_cons hrun, if_neg (Bool.eq_false_iff.mp hgo)]
      exact ih hv

/-- A branch ends as the statement that it takes. -/
theorem evalIf_branch {cond : Value} (hcond : ev n.children[0]? s = .ok cond t) (he : t.error = none)
    (hbranch : if isTruthy cond then n.children[1]? = j else n.children.length = 3 ∧ n.children[2]? = j) :
    evalIf ev n s = ev j t := by
  rw [evalIf, bind_ok hcond, unlessError, bind_ok (get_apply t), he]
  simp only [Option.isSome_none, Bool.false_eq_true, if_false]
  split at hbranch
  · next hc => rw [if_pos hc, hbranch]
  · next hc => rw [if_neg hc, if_pos hbranch.1, hbranch.2]

theorem loopGoesOn_returning (h : s.returning = true) : loopGoesOn s = .ok false s := by
  rw [loopGoesOn, bind_ok (get_apply s), h, Bool.or_true]
  rfl

/-- What comes behind the body of a loop, if it goes on. -/
private theorem visits_goesOn {rest : (Option Nat → GkM Value) → GkM Value} :
    Visits (fun ev => do if ← loopGoesOn then rest ev else return v) ev s j t ↔
      ∃ s', loopGoesOn s = .ok true s' ∧ Visits rest ev s' j t := by
  refine visits_act_bind.trans ⟨?_, ?_⟩
  · rintro ⟨b, s', hrun, h⟩
    cases b with
    | true => exact ⟨s', hrun, h⟩
    | false => exact absurd h (not_visits_act _)
  · rintro ⟨s', hrun, h⟩
    exact ⟨true, s', hrun, h⟩

theorem visits_whileLoop : Visits (fun ev => whileLoop ev n (fuel + 1) result) ev s j t ↔
    (n.children[0]? = j ∧ s = t) ∨
    ∃ cond s', ev n.children[0]? s = .ok cond s' ∧ s'.error = none ∧ isTruthy cond = true ∧
      ((n.children[1]? = j ∧ s' = t) ∨
      ∃ v s₁ s₂, ev n.children[1]? s' = .ok v s₁ ∧ loopGoesOn s₁ = .ok true s₂ ∧
        Visits (fun ev => whileLoop ev n fuel v) ev s₂ j t) := by
  refine visits_ask_bind.trans
    (or_congr_right (exists_congr fun cond => exists_congr fun s' => and_congr_right fun _ => ?_))
  refine visits_act_bind.trans ?_
  have hbody : Visits (fun ev => do
      let result ← ev n.children[1]?
      if ← loopGoesOn then whileLoop ev n fuel result else return result) ev s' j t ↔
      (n.children[1]? = j ∧ s' = t) ∨ ∃ v s₁ s₂, ev n.children[1]? s' = .ok v s₁ ∧ loopGoesOn s₁ = .ok true s₂ ∧
        Visits (fun ev => whileLoop ev n fuel v) ev s₂ j t := by
    refine visits_ask_bind.trans (or_congr_right (exists_congr fun v => exists_congr fun s₁ => ?_))
    exact (and_congr_right fun _ => visits_goesOn).trans exists_and_left.symm
  constructor
  · rintro ⟨x, s₀, hget, h⟩
    cases hget
    have h := visits_ite.mp h
    split at h
    · exact absurd h (not_visits_act _)
    · next hgo =>
      rw [Bool.or_eq_true, not_or] at hgo
      exact ⟨by simpa using hgo.1, by simpa using hgo.2, hbody.mp h⟩
  · rintro ⟨he, hc, h⟩
    refine ⟨s', s', rfl, visits_ite.mpr ?_⟩
    rw [if_neg (by simp [he, hc])]
    exact hbody.mpr h

theorem visits_forLoop : Visits (fun ev => forLoop ev n (left + 1) i result) ev s j t ↔
    ∃ s', setVar n.strVal (.int i) s = .ok true s' ∧ ((n.children[1]? = j ∧ s' = t) ∨
      ∃ v s₁ s₂, ev n.children[1]? s' = .ok v s₁ ∧ loopGoesOn s₁ = .ok true s₂ ∧
        Visits (fun ev => forLoop ev n left (i + 1) v) ev s₂ j t) := by
  have hbody : ∀ s', Visits (fun ev => do
      let result ← ev n.children[1]?
      if ← loopGoesOn then forLoop ev n left (i + 1) result else return result) ev s' j t ↔
      (n.children[1]? = j ∧ s' = t) ∨ ∃ v s₁ s₂, ev n.children[1]? s' = .ok v s₁ ∧ loopGoesOn s₁ = .ok true s₂ ∧
        Visits (fun ev => forLoop ev n left (i + 1) v) ev s₂ j t := by
    intro s'
    refine visits_ask_bind.trans (or_congr_right (exists_congr fun v => exists_congr fun s₁ => ?_))
    exact (and_congr_right fun _ => visits_goesOn).trans exists_and_left.symm
  refine visits_act_bind.trans ⟨?_, ?_⟩
  · rintro ⟨b, s', hset, h⟩
    cases b with
    | true => exact ⟨s', hset, (hbody s').mp h⟩
    | false => exact absurd h (not_visits_act _)
  · rintro ⟨s', hset, h⟩
    exact ⟨true, s', hset, (hbody s').mpr h⟩

theorem visits_evalLimit (h : Visits (fun ev => evalLimit ev n) ev s j t) :
    s = t ∧ ∃ iter, s.nodes[n.children[0]?.getD maxNodes]? = some iter ∧
      if iter.type = .range then iter.children[0]? = j else n.children[0]? = j := by
  obtain ⟨x, s', hget, h⟩ := visits_act_bind.mp h
  cases hget
  cases hiter : s.nodes[n.children[0]?.getD maxNodes]? with
  | none =>
    rw [hiter] at h
    exact absurd h (not_visits_act _)
  | some iter =>
    rw [hiter] at h
    have hlimit : ∀ {k : Option Nat} {e : GkError}, Visits (fun ev => do let v ← ev k; forLimit v e) ev s j t →
      k = j ∧ s = t := by
      intro k e h
      obtain h | ⟨v, s', -, h⟩ := visits_ask_bind.mp h
      · exact h
      · exact absurd h (not_visits_act _)
    have h := visits_ite.mp h
    split at h
    · next hrange =>
      have h := visits_ite.mp h
      split at h
      · exact absurd h (not_visits_act _)
      · obtain ⟨hj, ht⟩ := hlimit h
        exact ⟨ht, iter, rfl, by rwa [if_pos hrange]⟩
    · next hrange =>
      obtain ⟨hj, ht⟩ := hlimit h
      exact ⟨ht, iter, rfl, by rwa [if_neg hrange]⟩

theorem forLimit_cases (v : Value) (e : GkError) (s : Run) :
    (∃ limit, forLimit v e s = .ok (some limit) s ∧ s.error = none) ∨
    ∃ s', forLimit v e s = .ok none s' ∧ s'.error ≠ none := by
  unfold forLimit
  rw [bind_ok (get_apply s)]
  cases he : s.error with
  | some x => exact .inr ⟨s, rfl, by rw [he]; exact Option.some_ne_none x⟩
  | none =>
    cases v with
    | int limit => exact .inl ⟨limit, rfl, rfl⟩
    | str | bool | none => exact .inr ⟨_, rfl, Option.some_ne_none e⟩

/-- The limit is the value of an expression; without one there is an error. -/
theorem evalLimit_ok {limit : Option Int} (h : evalLimit ev n s = .ok limit s') :
    (limit = none ∧ s'.error ≠ none) ∨
    (s'.error = none ∧ ∃ k v, Visits (fun ev => evalLimit ev n) ev s k s ∧ ev k s = .ok v s') := by
  have hask : ∀ {k : Option Nat} {e : GkError}, (do let v ← ev k; forLimit v e : GkM (Option Int)) s =
    .ok limit s' →
      (limit = none ∧ s'.error ≠ none) ∨ (s'.error = none ∧ ∃ v, ev k s = .ok v s') := by
    intro k e h
    obtain ⟨v, t, hrun, h⟩ := bind_eq_ok h
    obtain ⟨limit', heq, ht⟩ | ⟨t', heq, ht⟩ := forLimit_cases v e t
    · rw [heq] at h
      cases h
      exact .inr ⟨ht, v, hrun⟩
    · rw [heq] at h
      cases h
      exact .inl ⟨rfl, ht⟩
  rw [evalLimit, bind_ok (get_apply s)] at h
  cases hiter : s.nodes[n.children[0]?.getD maxNodes]? with
  | none =>
    rw [hiter] at h
    cases h
  | some iter =>
    simp only [hiter] at h
    have hvisits : ∀ {k : Option Nat}, (if iter.type = .range then ¬ iter.children.length < 1 ∧
      iter.children[0]? = k
        else n.children[0]? = k) → Visits (fun ev => evalLimit ev n) ev s k s := by
      intro k hk
      refine visits_act_bind.mpr ⟨s, s, rfl, ?_⟩
      simp only [hiter]
      split at hk
      · next hrange =>
        obtain ⟨hlen, rfl⟩ := hk
        simp only [if_pos hrange, if_neg hlen]
        exact (Visits.ask _ _ _).bind_left
      · next hrange =>
        subst hk
        simp only [if_neg hrange]
        exact (Visits.ask _ _ _).bind_left
    split at h
    · next hrange =>
      split at h
      · cases h
        exact .inl ⟨rfl, Option.some_ne_none _⟩
      · next hlen =>
        obtain hnone | ⟨he, v, hrun⟩ := hask h
        · exact .inl hnone
        · exact .inr ⟨he, _, v, hvisits (by rw [if_pos hrange]; exact ⟨hlen, rfl⟩), hrun⟩
    · next hrange =>
      obtain hnone | ⟨he, v, hrun⟩ := hask h
      · exact .inl hnone
      · exact .inr ⟨he, _, v, hvisits (by rw [if_neg hrange]), hrun⟩

theorem Formed.limit (hf : Formed nodes) (hs : s.nodes = nodes) (hn : n ∈ nodes) (htype : n.type = .forNode)
    (h : Visits (fun ev => evalLimit ev n) ev s j t) : ExprAt nodes j := by
  have hhead : ExprAt nodes n.children[0]? := hf.heads n hn (by rw [htype]; rfl)
  obtain ⟨-, iter, hiter, hj⟩ := visits_evalLimit h
  split at hj
  · next hrange =>
    subst hj
    intro c hc
    refine hf.exprs iter ?_ (by rw [hrange]; rfl) c (List.mem_of_getElem? hc) c rfl
    rw [← hs]
    exact List.mem_of_getElem? hiter
  · exact hj ▸ hhead

theorem visits_evalFor : Visits (fun ev => evalFor ev n) ev s j t ↔ Visits (fun ev => evalLimit ev n) ev s j t ∨
    ∃ limit s', evalLimit ev n s = .ok (some limit) s' ∧
    Visits (fun ev => forLoop ev n limit.toNat 0 .none) ev s' j t := by
  have hasks : Asks (fun _ => True) (Acts n) (fun _ => True) fun ev => evalLimit ev n :=
    asks_evalLimit (acts_of_plain n) (fun _ => trivial) trivial
  constructor
  · intro h
    obtain h | ⟨limit, s', hrun, h⟩ := hasks.visits_bind h
    · exact .inl h
    · cases limit with
      | none => exact absurd h (not_visits_act _)
      | some limit => exact .inr ⟨limit, s', hrun, h⟩
  · rintro (h | ⟨limit, s', hrun, h⟩)
    · exact h.bind_left
    · exact hasks.visits_bind_right hrun h

theorem visits_evalArgs : Visits (fun ev => evalArgs ev (c :: cs)) ev s j t ↔ (some c = j ∧ s = t) ∨
    ∃ v s', ev (some c) s = .ok v s' ∧ s'.error = none ∧ Visits (fun ev => evalArgs ev cs) ev s' j t := by
  have hasks : Asks (fun _ => True) (fun _ _ => True) (fun _ => True) fun ev => evalArgs ev cs :=
    asks_evalArgs (fun _ _ _ => trivial) fun _ _ => trivial
  refine visits_ask_bind.trans
    (or_congr_right (exists_congr fun v => exists_congr fun s' => and_congr_right fun _ => ?_))
  refine visits_act_bind.trans ⟨?_, ?_⟩
  · rintro ⟨x, s₀, hget, h⟩
    cases hget
    have h := visits_ite.mp h
    split at h
    · exact absurd h (not_visits_act _)
    · next he =>
      refine ⟨by simpa using he, ?_⟩
      obtain h | ⟨vs, s₁, -, h⟩ := hasks.visits_bind h
      · exact h
      · cases vs with
        | none => exact absurd h (not_visits_act _)
        | some vs => exact absurd h (not_visits_act _)
  · rintro ⟨he, h⟩
    refine ⟨s', s', rfl, visits_ite.mpr ?_⟩
    rw [if_neg (by simp [he])]
    exact h.bind_left

/-- The state in which the parameters of a call become variables. -/
def Run.entered (s : Run) : Run := ⟨{ s.toGkState with callDepth := s.callDepth + 1 }, s.toGkState :: s.past⟩

/-- A call evaluates its arguments, and the body of the function behind them. -/
theorem visits_evalCall : Visits (fun ev => evalCall ev n) ev s j t ↔
    ∃ f, findFunc s.funcs n.strVal = some f ∧ n.children.length = f.params.length ∧ s.callDepth < maxCallDepth ∧
      (Visits (fun ev => evalArgs ev n.children) ev s j t ∨
        ∃ args s₁, evalArgs ev n.children s = .ok (some args) s₁ ∧
        bindParams (f.params.zip args) s₁.entered = .ok true t ∧ f.bodyNode = j) := by
  have hasks : Asks (fun _ => True) (fun _ _ => True) (fun _ => True) fun ev => evalArgs ev n.children :=
    asks_evalArgs (fun _ _ _ => trivial) fun _ _ => trivial
  have hbody : ∀ {f : FuncDef} {args : List Value} {s₁ : Run},
    Visits (fun ev => applyFunc ev f args) ev s₁ j t ↔
      bindParams (f.params.zip args) s₁.entered = .ok true t ∧ f.bodyNode = j := by
    intro f args s₁
    refine visits_act_bind.trans ⟨?_, ?_⟩
    · rintro ⟨x, s₂, henter, h⟩
      cases henter
      obtain ⟨b, s₃, hbind, h⟩ := visits_act_bind.mp h
      cases b with
      | false => exact absurd h (not_visits_act _)
      | true =>
        have hask : Asks (fun _ => True) (Acts n) (fun _ => True) fun ev => runBody ev f :=
          asks_runBody (fun _ => trivial) f
        obtain h | ⟨v, s₄, -, h⟩ := hask.visits_bind h
        · obtain ⟨rfl, rfl⟩ | ⟨v, s₄, -, h⟩ := visits_ask_bind.mp h
          · exact ⟨hbind, rfl⟩
          · exact absurd h (not_visits_act _)
        · exact absurd h (not_visits_act _)
    · rintro ⟨hbind, rfl⟩
      refine ⟨(), s₁.entered, rfl, visits_act_bind.mpr ⟨true, t, hbind, ?_⟩⟩
      exact (Visits.bind_left (Visits.ask ev f.bodyNode t)).bind_left
  refine visits_act_bind.trans ⟨?_, ?_⟩
  · rintro ⟨x, s₀, hget, h⟩
    cases hget
    cases hf : findFunc s.funcs n.strVal with
    | none =>
      rw [hf] at h
      exact absurd h (not_visits_act _)
    | some f =>
      rw [hf] at h
      have h := visits_ite.mp h
      split at h
      · exact absurd h (not_visits_act _)
      next hlen =>
      have h := visits_ite.mp h
      split at h
      · exact absurd h (not_visits_act _)
      next hdepth =>
      refine ⟨f, rfl, not_not.mp hlen, Int.lt_of_not_ge hdepth, ?_⟩
      obtain h | ⟨args, s₁, hargs, h⟩ := hasks.visits_bind h
      · exact .inl h
      · cases args with
        | none => exact absurd h (not_visits_act _)
        | some args => exact .inr ⟨args, s₁, hargs, hbody.mp h⟩
  · rintro ⟨f, hf, hlen, hdepth, h⟩
    refine ⟨s, s, rfl, ?_⟩
    rw [hf]
    refine visits_ite.mpr ?_
    rw [if_neg (not_not.mpr hlen)]
    refine visits_ite.mpr ?_
    rw [if_neg (Int.not_le.mpr hdepth)]
    obtain h | ⟨args, s₁, hargs, h⟩ := h
    · exact h.bind_left
    · exact hasks.visits_bind_right hargs (hbody.mpr h)

theorem evalArgs_none (h : evalArgs ev cs s = .ok none s') : s'.error ≠ none := by
  induction cs generalizing s with
  | nil => cases h
  | cons c cs ih =>
    obtain ⟨v, s₁, -, h⟩ := bind_eq_ok h
    rw [bind_ok (get_apply s₁)] at h
    split at h
    · next he =>
      cases h
      exact Option.isSome_iff_ne_none.mp he
    · obtain ⟨vs, s₂, hrest, h⟩ := bind_eq_ok h
      cases vs with
      | none =>
        cases h
        exact ih hrest
      | some vs => cases h

theorem bindParams_false {ps : List (List UInt8 × Value)} (h : bindParams ps s = .ok false s') :
    s'.error ≠ none := by
  induction ps generalizing s with
  | nil => cases h
  | cons p ps ih =>
    obtain ⟨b, s₁, hset, h⟩ := bind_eq_ok h
    cases b with
    | true => exact ih h
    | false =>
      cases h
      rw [(setVar_ok hset).2 rfl]
      exact Option.some_ne_none _

/-- A call that ends without an error has evaluated the body of its function in `u`, with
the outcome `w` and `u'`. -/
structure Called (ev : Option Nat → GkM Value) (n : Node) (s : Run) (f : FuncDef) (args : List Value)
  (s₁ u : Run) (w : Value)
    (u' : Run) : Prop where
  func : findFunc s.funcs n.strVal = some f
  length : n.children.length = f.params.length
  depth : s.callDepth < maxCallDepth
  given : evalArgs ev n.children s = .ok (some args) s₁
  bound : bindParams (f.params.zip args) s₁.entered = .ok true u
  body : ev f.bodyNode u = .ok w u'

/-- The end of such a call: its value, and the flags behind it. -/
theorem Called.apply {f : FuncDef} {args : List Value} {s₁ u' : Run} {w : Value}
    (h : Called ev n s f args s₁ u w u') :
    ∃ s', evalCall ev n s = .ok (if u'.returning then u'.returnVal else w) s' ∧ s'.error = u'.error ∧
    s'.returning = false ∧
      s'.breaking = u'.breaking ∧ s'.continuing = u'.continuing := by
  have hbody : applyFunc ev f args s₁ =
    (do let result ← runBody ev f; leaveCall; return result : GkM Value) u := by
    have hbind : applyFunc ev f args s₁ = (do
        if ← bindParams (f.params.zip args) then do
          let result ← runBody ev f
          leaveCall
          return result
        else do
          leaveCall
          return .none : GkM Value) s₁.entered := rfl
    rw [hbind, bind_ok h.bound]
    rfl
  rw [evalCall, bind_ok (get_apply s), h.func]
  simp only [if_neg (not_not.mpr h.length), if_neg (Int.not_le.mpr h.depth)]
  rw [bind_ok h.given]
  simp only
  rw [hbody, runBody, bind_assoc, bind_ok h.body]
  exact ⟨_, rfl, rfl, rfl, rfl, rfl⟩

/-- The value of the call, and the flags behind it. -/
theorem evalCall_ok (h : evalCall ev n s = .ok v s') (he : s'.error = none) :
    ∃ f args s₁ u w u', Called ev n s f args s₁ u w u' ∧ v = (if u'.returning then u'.returnVal else w) ∧
      u'.error = none ∧ s'.returning = false ∧ s'.breaking = u'.breaking ∧ s'.continuing = u'.continuing := by
  rw [evalCall, bind_ok (get_apply s)] at h
  cases hf : findFunc s.funcs n.strVal with
  | none =>
    rw [hf] at h
    cases h
    cases he
  | some f =>
    simp only [hf] at h
    split at h
    · cases h
      cases he
    next hlen =>
    split at h
    · cases h
      cases he
    next hdepth =>
    obtain ⟨args, s₁, hargs, h⟩ := bind_eq_ok h
    cases args with
    | none =>
      cases h
      exact absurd he (evalArgs_none hargs)
    | some args =>
      obtain ⟨x, s₂, henter, h⟩ := bind_eq_ok h
      cases henter
      obtain ⟨b, u, hbind, h⟩ := bind_eq_ok h
      cases b with
      | false =>
        cases h
        have he : u.error = none := he
        exact absurd he (bindParams_false hbind)
      | true =>
        obtain ⟨v', s₃, hbody, h⟩ := bind_eq_ok h
        obtain ⟨w, u', hrun, hbody⟩ := bind_eq_ok hbody
        rw [bind_ok (get_apply u')] at hbody
        cases hbody
        cases h
        exact ⟨f, args, s₁, u, w, u',
          ⟨hf, not_not.mp hlen, Int.lt_of_not_ge hdepth, hargs, hbind, hrun⟩, rfl, he, rfl, rfl, rfl⟩

theorem bindParams_plain {ps : List (List UInt8 × Value)} {b : Bool} (h : bindParams ps s = .ok b s') :
    Plain s s' ∧ s'.callDepth = s.callDepth := by
  induction ps generalizing s with
  | nil =>
    cases h
    exact ⟨.refl _, rfl⟩
  | cons p ps ih =>
    obtain ⟨b', s₁, hset, h⟩ := bind_eq_ok h
    obtain ⟨hp, hd⟩ := setVar_plain hset
    cases b' with
    | false =>
      cases h
      exact ⟨hp, hd⟩
    | true =>
      obtain ⟨hp', hd'⟩ := ih h
      exact ⟨hp.trans hp', hd'.trans hd⟩

end

/-! The activation that a call begins. -/

/-- The call `c` in `t` evaluates the body `b` in `u`, one level deeper. -/
def Enters (fuel c : Nat) (t : Run) (b : Option Nat) (u : Run) : Prop :=
  ∃ n, t.nodes[c]? = some n ∧ n.type = .call ∧ t.error = none ∧
  Visits (fun ev => evalNode ev fuel n) (eval fuel) t b u ∧
    u.callDepth = t.callDepth + 1

variable {fuel c : Nat} {s t u : Run} {b j : Option Nat} {n : Node}

theorem evalNode_call {ev : Option Nat → GkM Value} (htype : n.type = .call) :
    evalNode ev fuel n = evalCall ev n := by
  rw [evalNode, htype]

theorem visits_evalNode_call (htype : n.type = .call) :
    Visits (fun ev => evalNode ev fuel n) (eval fuel) s j t ↔
    Visits (fun ev => evalCall ev n) (eval fuel) s j t := Visits.congr fun ev => by rw [evalNode_call htype]

/-- The arguments are evaluated at the level of the call. -/
theorem depth_of_visits_evalArgs {cs : List Nat} (hd : 0 ≤ s.callDepth)
    (h : Visits (fun ev => evalArgs ev cs) (eval fuel) s j t) :
    t.callDepth = s.callDepth := by
  induction cs generalizing s with
  | nil => exact absurd h (not_visits_act _)
  | cons c cs ih =>
    obtain ⟨-, rfl⟩ | ⟨v, s', hrun, -, h⟩ := visits_evalArgs.mp h
    · rfl
    · have hd' := (stepped_eval fuel (some c) s hd).ok v s' hrun
      exact (ih (by omega) h).trans hd'

/-- The call evaluates the body once its arguments are bound to the parameters. -/
theorem enters_iff (hd : 0 ≤ t.callDepth) : Enters fuel c t b u ↔ ∃ n f args s₁, t.nodes[c]? = some n ∧
    n.type = .call ∧
    t.error = none ∧ findFunc t.funcs n.strVal = some f ∧ n.children.length = f.params.length ∧
    t.callDepth < maxCallDepth ∧
    evalArgs (eval fuel) n.children t = .ok (some args) s₁ ∧
    bindParams (f.params.zip args) s₁.entered = .ok true u ∧
    f.bodyNode = b := by
  constructor
  · rintro ⟨n, hn, htype, he, hv, hdepth⟩
    obtain ⟨f, hf, hlen, hroom, hargs | ⟨args, s₁, hargs, hbind, hb⟩⟩ :=
      visits_evalCall.mp ((visits_evalNode_call htype).mp hv)
    · have := depth_of_visits_evalArgs hd hargs
      omega
    · exact ⟨n, f, args, s₁, hn, htype, he, hf, hlen, hroom, hargs, hbind, hb⟩
  · rintro ⟨n, f, args, s₁, hn, htype, he, hf, hlen, hroom, hargs, hbind, hb⟩
    refine ⟨n, hn, htype, he, (visits_evalNode_call htype).mpr ?_, ?_⟩
    · exact visits_evalCall.mpr ⟨f, hf, hlen, hroom, .inr ⟨args, s₁, hargs, hbind, hb⟩⟩
    · have hd₁ := (stepped_evalArgs (stepped_eval fuel) hd n.children he).1.ok _ _ hargs
      have hdu := (bindParams_plain hbind).2
      rw [hdu, ← hd₁]
      rfl

theorem Called.enters {f : FuncDef} {args : List Value} {x u' : Run} {w : Value}
    (h : Called (eval fuel) n t f args x u w u')
    (hd : 0 ≤ t.callDepth) (hn : t.nodes[c]? = some n) (htype : n.type = .call) (he : t.error = none) :
    Enters fuel c t f.bodyNode u :=
  (enters_iff hd).mpr ⟨n, f, args, x, hn, htype, he, h.func, h.length, h.depth, h.given, h.bound, rfl⟩

/-- The second statement of a block, with the state before it. -/
def secondStatement (fuel root : Nat) (s : Run) : Option (Nat × Run) :=
  match s.nodes[root]? with
  | none => none
  | some n =>
    match n.children with
    | d :: c :: _ =>
      match eval fuel (some d) s with
      | .ok _ s' => if n.type = .block ∧ s'.halted = false then some (c, s') else none
      | .error _ _ => none
    | _ => none

theorem evaluates_second {root : Nat} (h : secondStatement fuel root s = some (c, t)) (he : s.error = none) :
    Evaluates (fun _ => True) (fuel + 1) (some root) s fuel (some c) t := by
  unfold secondStatement at h
  split at h
  · cases h
  next n hn =>
  split at h
  · next d c' cs hkids =>
    cases hrun : eval fuel (some d) s with
    | error e s' =>
      rw [hrun] at h
      cases h
    | ok v s' =>
      simp only [hrun] at h
      split at h
      · next hgo =>
        cases h
        refine .step hn he trivial ?_ (.refl _ _ _ _)
        unfold evalNode
        simp only [hgo.1, hkids]
        exact visits_blockLoop.mpr (.inr ⟨v, _, hrun, hgo.2, visits_blockLoop.mpr (.inl ⟨rfl, rfl⟩)⟩)
      · cases h
  · cases h

end GeckoOS.Gk
