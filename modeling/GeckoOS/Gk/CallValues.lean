import GeckoOS.Gk.Activations

/-! The value of a call: that of a return, or what the body leaves behind. -/
namespace GeckoOS.Gk
open Lib

/-- The statements that hold other statements. -/
def NodeType.isCompound : NodeType → Bool
  | .block | .ifNode | .whileNode | .forNode => true
  | _ => false

/-- A return without an expression gives None. -/
def ReturnValue (fuel : Nat) (n : Node) (x : Run) (v : Value) : Prop :=
  match n.children with
  | [] => v = .none
  | c :: _ => ∃ x', eval fuel (some c) x = .ok v x' ∧ x'.error = none

/-- The body `b`, evaluated in `u`, executes a return statement with this value;
one of this activation, as it is reached through statements only. -/
def Returns (fuel : Nat) (b : Option Nat) (u : Run) (v : Value) : Prop :=
  ∃ k j x n, Evaluates (fun type => type.isCompound = true) fuel b u (k + 1) (some j) x ∧ x.nodes[j]? = some n ∧
    n.type = .returnNode ∧ x.error = none ∧ ReturnValue k n x v

/-- None without a return, and the value of the return with one. -/
def RightValue (fuel : Nat) (b : Option Nat) (u : Run) (v : Value) : Prop :=
  ((¬ ∃ w, Returns fuel b u w) → v = .none) ∧ ∀ w, Returns fuel b u w → v = w

/-! The statement with which another one ends. These run as the statements do, and
give the last part with the state before it in place of the value. -/

section
variable (ev : Option Nat → GkM Value)

def blockLast : List Nat → GkM (Option (Option Nat × Run))
  | [] => return none
  | c :: cs => do
    let t ← get
    let _ ← ev (some c)
    if (← get).halted then return some (some c, t) else return (← blockLast cs).or (some (some c, t))

/-- The branch that is taken. -/
def ifLast (n : Node) : GkM (Option (Option Nat × Run)) := do
  let cond ← ev n.children[0]?
  let t ← get
  if t.error.isSome then return none
  else if isTruthy cond then return some (n.children[1]?, t)
  else if n.children.length = 3 then return some (n.children[2]?, t)
  else return none

/-- The last pass of the loop. -/
def whileLast (n : Node) : Nat → GkM (Option (Option Nat × Run))
  | 0 => throw .outOfFuel
  | fuel+1 => do
    let cond ← ev n.children[0]?
    let t ← get
    if t.error.isSome || !isTruthy cond then return none
    else
      let _ ← ev n.children[1]?
      if ← loopGoesOn then return (← whileLast n fuel).or (some (n.children[1]?, t))
      else return some (n.children[1]?, t)

def forLast (n : Node) : Nat → Int → GkM (Option (Option Nat × Run))
  | 0, _ => return none
  | left+1, i => do
    if ← setVar n.strVal (.int i) then
      let t ← get
      let _ ← ev n.children[1]?
      if ← loopGoesOn then return (← forLast n left (i + 1)).or (some (n.children[1]?, t))
      else return some (n.children[1]?, t)
    else return none

def lastPart (fuel : Nat) (n : Node) : GkM (Option (Option Nat × Run)) :=
  match n.type with
  | .block => blockLast ev n.children
  | .ifNode => ifLast ev n
  | .whileNode => whileLast ev n fuel
  | .forNode => do
    match ← evalLimit ev n with
    | none => return none
    | some limit => forLast ev n limit.toNat 0
  | _ => return none

end

/-- The last statement that holds no others, with its fuel and the state before it. -/
def lastStatement : Nat → Option Nat → Run → Option (Nat × Nat × Run)
  | fuel+1, some c, s =>
    if s.error.isSome then none
    else
      match s.nodes[c]? with
      | none => none
      | some n =>
        if n.type.isCompound then
          match lastPart (eval fuel) fuel n s with
          | .ok (some (l, t)) _ => lastStatement fuel l t
          | _ => none
        else some (fuel, c, s)
  | _, _, _ => none

/-- The last statement has a value, as assignments and expressions do. -/
def LeavesValue (fuel : Nat) (b : Option Nat) (u : Run) : Prop :=
  ∃ k j x v x', lastStatement fuel b u = some (k, j, x) ∧ eval (k + 1) (some j) x = .ok v x' ∧ v ≠ .none

variable {nodes : List Node} {fuel left k : Nat} {c : Nat} {cs : List Nat} {i j l : Option Nat}
  {s s' t t' u u' : Run} {n : Node}
  {v w last result : Value} {z : Int} {ev : Option Nat → GkM Value}

/-- The value is that of the last part, or `rest` if there is none. -/
def ValueOf (ev : Option Nat → GkM Value) (rest v : Value) : Option (Option Nat × Run) → Prop
  | none => v = rest
  | some (l, t) => ∃ t', ev l t = .ok v t' ∧ t'.error = none

/-- A part and those behind it. -/
theorem ValueOf.or {o : Option (Option Nat × Run)} (h : ValueOf ev w v o) (hw : ev l t = .ok w t')
    (he : t'.error = none) :
    ValueOf ev result v (o.or (some (l, t))) := by
  cases o with
  | none => exact ⟨t', h ▸ hw, he⟩
  | some part => exact h

theorem error_of_not_halted (h : ¬ s.halted = true) : s.error = none := by
  simp only [Run.halted, Bool.or_eq_true, not_or] at h
  simpa using h.1.1.1

theorem blockLast_ok (h : blockLoop ev cs last s = .ok v s') (he : s'.error = none) :
    ∃ o, blockLast ev cs s = .ok o s' ∧ ValueOf ev last v o := by
  induction cs generalizing s last with
  | nil =>
    cases h
    exact ⟨none, rfl, rfl⟩
  | cons c cs ih =>
    obtain ⟨w, s₁, hrun, -⟩ := bind_eq_ok h
    rw [blockLoop_cons hrun] at h
    rw [blockLast, bind_ok (get_apply s), bind_ok hrun, bind_ok (get_apply s₁)]
    split at h
    · next hhalt =>
      cases h
      rw [if_pos hhalt]
      exact ⟨_, rfl, _, hrun, he⟩
    · next hgo =>
      obtain ⟨o, hlast, hval⟩ := ih h
      rw [if_neg hgo, bind_ok hlast]
      exact ⟨_, rfl, hval.or hrun (error_of_not_halted hgo)⟩

theorem ifLast_ok (h : evalIf ev n s = .ok v s') (he' : s'.error = none) : ∃ o t, ifLast ev n s = .ok o t ∧
    ValueOf ev .none v o := by
  obtain ⟨cond, s₁, hcond, h⟩ := bind_eq_ok h
  rw [unlessError, bind_ok (get_apply s₁)] at h
  rw [ifLast, bind_ok hcond, bind_ok (get_apply s₁)]
  split at h
  · next he =>
    cases h
    rw [if_pos he]
    exact ⟨_, _, rfl, rfl⟩
  · next he =>
    rw [if_neg he]
    split at h
    · next hc =>
      rw [if_pos hc]
      exact ⟨_, _, rfl, s', h, he'⟩
    · next hc =>
      rw [if_neg hc]
      split at h
      · next hlen =>
        rw [if_pos hlen]
        exact ⟨_, _, rfl, s', h, he'⟩
      · next hlen =>
        cases h
        rw [if_neg hlen]
        exact ⟨_, _, rfl, rfl⟩

/-- Behind the body of a loop. -/
private theorem goesOn_last {rest : GkM Value} {restLast : GkM (Option (Option Nat × Run))}
    (hrest : ∀ s₃, rest s₃ = .ok v s' → ∃ o, restLast s₃ = .ok o s' ∧ ValueOf ev w v o)
    (hbody : ev l t = .ok w u)
    (h : (do if ← loopGoesOn then rest else return w : GkM Value) u = .ok v s') (he : s'.error = none) :
    ∃ o, (do if ← loopGoesOn then return (← restLast).or (some (l, t)) else return some (l, t) :
      GkM (Option (Option Nat × Run))) u = .ok o s' ∧ ValueOf ev result v o := by
  obtain ⟨b, s₃, hon, h⟩ := bind_eq_ok h
  obtain ⟨-, -, -, -, herr, hnone⟩ := loopGoesOn_ok hon
  rw [bind_ok hon]
  cases b with
  | false =>
    cases h
    exact ⟨_, rfl, u, hbody, herr.symm.trans he⟩
  | true =>
    obtain ⟨o, hlast, hval⟩ := hrest s₃ h
    exact ⟨_, (bind_ok hlast).trans rfl, hval.or hbody (hnone rfl).1⟩

theorem whileLast_ok (h : whileLoop ev n fuel result s = .ok v s') (he : s'.error = none) :
    ∃ o, whileLast ev n fuel s = .ok o s' ∧ ValueOf ev result v o := by
  induction fuel generalizing s result with
  | zero => cases h
  | succ fuel ih =>
    obtain ⟨cond, s₁, hcond, h⟩ := bind_eq_ok h
    rw [bind_ok (get_apply s₁)] at h
    rw [whileLast, bind_ok hcond, bind_ok (get_apply s₁)]
    split at h
    · next hend =>
      cases h
      rw [if_pos hend]
      exact ⟨_, rfl, rfl⟩
    · next hgo =>
      obtain ⟨w, s₂, hbody, h⟩ := bind_eq_ok h
      rw [if_neg hgo, bind_ok hbody]
      exact goesOn_last (fun s₃ h => ih h) hbody h he

theorem forLast_ok (h : forLoop ev n left z result s = .ok v s') (he : s'.error = none) :
    ∃ o, forLast ev n left z s = .ok o s' ∧ ValueOf ev result v o := by
  induction left generalizing s z result with
  | zero =>
    cases h
    exact ⟨none, rfl, rfl⟩
  | succ left ih =>
    obtain ⟨b, s₁, hset, h⟩ := bind_eq_ok h
    rw [forLast, bind_ok hset]
    cases b with
    | false =>
      cases h
      rw [(setVar_ok hset).2 rfl] at he
      cases he
    | true =>
      obtain ⟨w, s₂, hbody, h⟩ := bind_eq_ok h
      simp only [if_true]
      rw [bind_ok (get_apply s₁), bind_ok hbody]
      exact goesOn_last (fun s₃ h => ih h) hbody h he

theorem lastPart_ok (htype : n.type.isCompound = true) (h : evalNode ev fuel n s = .ok v s')
    (he : s'.error = none) :
    ∃ o t, lastPart ev fuel n s = .ok o t ∧ ValueOf ev .none v o := by
  unfold evalNode at h
  unfold lastPart
  cases hn : n.type with
  | block =>
    simp only [hn] at h
    obtain ⟨o, hlast, hval⟩ := blockLast_ok h he
    exact ⟨o, s', hlast, hval⟩
  | ifNode =>
    simp only [hn] at h
    exact ifLast_ok h he
  | whileNode =>
    simp only [hn] at h
    obtain ⟨o, hlast, hval⟩ := whileLast_ok h he
    exact ⟨o, s', hlast, hval⟩
  | forNode =>
    simp only [hn] at h
    obtain ⟨limit, s₁, hlimit, h⟩ := bind_eq_ok h
    simp only
    rw [bind_ok hlimit]
    cases limit with
    | none =>
      cases h
      exact ⟨none, s', rfl, rfl⟩
    | some limit =>
      obtain ⟨o, hlast, hval⟩ := forLast_ok h he
      exact ⟨o, s', hlast, hval⟩
  | int | str | bool | var | assign | unop | binop | print | input | intCast | defNode | call
  | returnNode | breakNode | continueNode | range =>
    rw [hn] at htype
    cases htype

/-- The value is that of the last statement. -/
theorem eval_lastStatement (h : eval fuel i s = .ok v s') (he : s'.error = none) :
    match lastStatement fuel i s with
    | none => v = .none
    | some (k, j, x) => ∃ x', eval (k + 1) (some j) x = .ok v x' := by
  induction fuel generalizing i s s' with
  | zero =>
    obtain ⟨rfl, -⟩ | ⟨k, -, -, ⟨⟩, -⟩ := eval_cases h
    rfl
  | succ fuel ih =>
    obtain ⟨rfl, rfl, hi⟩ | ⟨k, c, n, hk, rfl, hn, hs, hrun⟩ := eval_cases h
    · obtain rfl | hne := hi
      · rfl
      · exact absurd he hne
    cases hk
    simp only [lastStatement, hs, hn, Option.isSome_none, Bool.false_eq_true, if_false]
    by_cases htype : n.type.isCompound = true
    · obtain ⟨o, t, hlast, hval⟩ := lastPart_ok htype hrun he
      rw [if_pos htype, hlast]
      cases o with
      | none => exact hval
      | some part =>
        obtain ⟨t', hpart, het⟩ := hval
        exact ih hpart het
    · rw [if_neg htype]
      exact ⟨s', h⟩

/-- A body that ends without an error leaves a value exactly if it is not None. -/
theorem leavesValue_iff (h : eval fuel i s = .ok v s') (he : s'.error = none) :
    LeavesValue fuel i s ↔ v ≠ .none := by
  have hlast := eval_lastStatement h he
  constructor
  · rintro ⟨k, j, x, w, x', heq, hrun, hw⟩
    simp only [heq] at hlast
    obtain ⟨x'', hrun'⟩ := hlast
    rw [hrun] at hrun'
    cases hrun'
    exact hw
  · intro hv
    cases heq : lastStatement fuel i s with
    | none =>
      rw [heq] at hlast
      exact absurd hlast hv
    | some part =>
      obtain ⟨k, j, x⟩ := part
      simp only [heq] at hlast
      obtain ⟨x', hrun⟩ := hlast
      exact ⟨k, j, x, v, x', heq, hrun, hv⟩

/-! A return that is executed ends the activation. -/

theorem not_returns_expr (hnodes : s.nodes = nodes) (hi : ExprAt nodes i) : ¬ Returns fuel i s v := by
  rintro ⟨k, j, x, n, hreach, hn, htype, -⟩
  obtain ⟨rfl, rfl⟩ := hreach.of_expr (fun type h => by cases type <;> first | rfl | cases h) hnodes hi
  obtain ⟨n', hn', hexpr⟩ := hi j rfl
  rw [← hnodes, hn] at hn'
  cases hn'
  rw [htype] at hexpr
  cases hexpr

theorem whileLoop_returns (hv : Visits (fun ev => whileLoop ev n k result) ev s l u) (hl : l ≠ n.children[0]?)
    (h : ev l u = .ok w u') (hret : u'.returning = true) : whileLoop ev n k result s = .ok w u' := by
  induction k generalizing s result with
  | zero => exact absurd hv (not_visits_act _)
  | succ k ih =>
    obtain ⟨rfl, -⟩ | ⟨cond, s₁, hcond, he, hc, hv⟩ := visits_whileLoop.mp hv
    · exact absurd rfl hl
    have hbody : whileLoop ev n (k + 1) result s =
        (do
          let result ← ev n.children[1]?
          if ← loopGoesOn then whileLoop ev n k result else return result : GkM Value) s₁ := by
      rw [whileLoop, bind_ok hcond, bind_ok (get_apply s₁), he, hc]
      rfl
    rw [hbody]
    obtain ⟨rfl, rfl⟩ | ⟨r, s₂, s₃, hrun, hon, hv⟩ := hv
    · rw [bind_ok h, bind_ok (loopGoesOn_returning hret)]
      rfl
    · rw [bind_ok hrun, bind_ok hon]
      exact ih hv

theorem forLoop_returns (hv : Visits (fun ev => forLoop ev n left z result) ev s l u)
    (h : ev l u = .ok w u') (hret : u'.returning = true) : forLoop ev n left z result s = .ok w u' := by
  induction left generalizing s z result with
  | zero => exact absurd hv (not_visits_act _)
  | succ left ih =>
    obtain ⟨s₁, hset, hv⟩ := visits_forLoop.mp hv
    rw [forLoop, bind_ok hset]
    simp only [if_true]
    obtain ⟨rfl, rfl⟩ | ⟨r, s₂, s₃, hrun, hon, hv⟩ := hv
    · rw [bind_ok h, bind_ok (loopGoesOn_returning hret)]
      rfl
    · rw [bind_ok hrun, bind_ok hon]
      exact ih hv

/-- A compound statement ends with the part in which a return is executed. -/
theorem evalNode_returns (hf : Formed nodes) (hnodes : s.nodes = nodes) (hmem : n ∈ nodes)
    (htype : n.type.isCompound = true)
    (hv : Visits (fun ev => evalNode ev fuel n) (eval fuel) s l u) (hl : ¬ ExprAt nodes l)
    (h : eval fuel l u = .ok w u') (hret : u'.returning = true) : evalNode (eval fuel) fuel n s = .ok w u' := by
  have hhead : n.type.hasHead = true → l ≠ n.children[0]? := by
    rintro hhas rfl
    exact hl (hf.heads n hmem hhas)
  unfold evalNode at hv ⊢
  cases hn : n.type with
  | block =>
    simp only [hn] at hv ⊢
    refine blockLoop_halts hv h ?_
    simp [Run.halted, hret]
  | ifNode =>
    simp only [hn] at hv hhead ⊢
    obtain ⟨rfl, -⟩ | ⟨cond, hcond, he, hbranch⟩ := visits_evalIf.mp hv
    · exact absurd rfl (hhead rfl)
    · exact (evalIf_branch hcond he hbranch).trans h
  | whileNode =>
    simp only [hn] at hv hhead ⊢
    exact whileLoop_returns hv (hhead rfl) h hret
  | forNode =>
    simp only [hn] at hv ⊢
    obtain hv | ⟨limit, s₁, hlimit, hv⟩ := visits_evalFor.mp hv
    · exact absurd (hf.limit hnodes hmem hn hv) hl
    · rw [evalFor, bind_ok hlimit]
      exact forLoop_returns hv h hret
  | int | str | bool | var | assign | unop | binop | print | input | intCast | defNode | call
  | returnNode | breakNode | continueNode | range =>
    rw [hn] at htype
    cases htype

theorem evalReturn_ok (he : s.error = none) (h : ReturnValue fuel n s v) :
    ∃ s', evalReturn (eval fuel) n s = .ok v s' ∧ s'.error = none ∧ s'.returning = true ∧ s'.returnVal = v := by
  unfold ReturnValue at h
  unfold evalReturn
  cases hkids : n.children with
  | nil =>
    rw [hkids] at h
    subst h
    exact ⟨_, rfl, he, rfl, rfl⟩
  | cons c cs =>
    rw [hkids] at h
    obtain ⟨x', hrun, he'⟩ := h
    simp only
    rw [bind_ok hrun, unlessError, bind_ok (get_apply x'), he']
    exact ⟨_, rfl, he', rfl, rfl⟩

theorem returnValue_of_ok (h : evalReturn (eval fuel) n s = .ok v s') (he : s'.error = none) :
    ∃ w, ReturnValue fuel n s w := by
  unfold evalReturn at h
  unfold ReturnValue
  cases hkids : n.children with
  | nil => exact ⟨.none, rfl⟩
  | cons c cs =>
    rw [hkids] at h
    obtain ⟨w, x, hrun, h⟩ := bind_eq_ok h
    rw [unlessError, bind_ok (get_apply x)] at h
    split at h
    · next hne =>
      cases h
      rw [he] at hne
      cases hne
    · next hgo => exact ⟨w, x, hrun, by simpa using hgo⟩

theorem returns_ends (hf : Formed nodes) (hnodes : s.nodes = nodes) (h : Returns fuel i s v) :
    ∃ s', eval fuel i s = .ok v s' ∧ s'.error = none ∧ s'.returning = true ∧ s'.returnVal = v := by
  obtain ⟨k, j, x, m, hreach, hm, htype, he, hval⟩ := h
  refine hreach.backward (P := fun k i s => s.nodes = nodes →
    ∃ s', eval k i s = .ok v s' ∧ s'.error = none ∧ s'.returning = true ∧ s'.returnVal = v) ?_ ?_ hnodes
  · intro k c n s l u hn hs hcomp hv hrest hend hnodes
    have hu := (visits_nodes hv).trans hnodes
    obtain ⟨u', hrun, hu'⟩ := hend hu
    refine ⟨u', ?_, hu'⟩
    rw [eval_node hn hs]
    refine evalNode_returns hf hnodes (hnodes ▸ List.mem_of_getElem? hn) hcomp hv (fun hexpr => ?_) hrun hu'.2.1
    exact not_returns_expr hu hexpr ⟨_, _, _, m, hrest, hm, htype, he, hval⟩
  · intro _
    rw [eval_node hm he, evalNode, htype]
    exact evalReturn_ok he hval

/-! Only an executed return sets its flag. -/

/-- What leaves the flag of a return as it is. -/
structure Calm (s s' : Run) : Prop where
  error : s'.error = none → s.error = none
  returning : s'.returning = s.returning

theorem calm_of_plain (s s' : Run) (h : Plain s s') : Calm s s' := ⟨h.error, h.returning⟩

theorem calm_of_goesOn (s : Run) (b : Bool) (s' : Run) (h : loopGoesOn s = .ok b s') : Calm s s' := by
  obtain ⟨-, -, hret, -, herr, -⟩ := loopGoesOn_ok h
  exact ⟨fun he => herr.symm.trans he, hret⟩

/-- A node that is neither a call nor a return evaluates expressions, or statements if it is compound. -/
theorem asks_calm (hf : Formed nodes) (hmem : n ∈ nodes) (hcall : n.type ≠ .call)
    (hret : n.type ≠ .returnNode) (fuel : Nat) :
    Asks (fun i => n.type.isCompound = true ∨ ExprAt nodes i) Calm (fun _ => True) fun ev =>
      evalNode ev fuel n := by
  by_cases hexpr : n.type.isExpr = true
  · refine (asks_expr hexpr hcall fuel).mono (fun i hi => .inr fun c hc => ?_) calm_of_plain fun _ h => h
    exact hf.exprs n hmem hexpr c (hi c hc) c rfl
  have hhead : n.type.hasHead = true → ExprAt nodes n.children[0]? := hf.heads n hmem
  have hflag : ∀ f : GkState → GkState, (∀ m, (f m).error = m.error) → (∀ m, (f m).returning = m.returning) →
      Asks (fun i => n.type.isCompound = true ∨ ExprAt nodes i) Calm (fun _ => True) fun _ :
        Option Nat → GkM Value =>
        (do update f; return .none : GkM Value) := by
    intro f herr hkeep
    refine .act (fun s v s' h => ?_) fun s e s' h => trivial
    cases h
    exact ⟨fun he => (herr s.toGkState).symm.trans he, hkeep s.toGkState⟩
  unfold evalNode
  cases ht : n.type with
  | assign =>
    rw [ht] at hhead
    exact .bind (.ask (.inr (hhead rfl))) fun _ => asks_unlessError calm_of_plain <|
      .bind (asks_setVar calm_of_plain _ _) fun _ =>
        .ite (asks_pure calm_of_plain _) (asks_pure calm_of_plain _)
  | block => exact asks_blockLoop calm_of_plain (fun _ _ => .inl rfl) _
  | ifNode => exact asks_evalIf calm_of_plain fun _ _ => .inl rfl
  | whileNode => exact asks_whileLoop calm_of_plain calm_of_goesOn (fun _ => .inl rfl) trivial _ _
  | forNode => exact asks_evalFor calm_of_plain calm_of_goesOn (fun _ => .inl rfl) trivial
  | defNode =>
    refine .act (m := evalDef n) (fun s v s' h => ?_) fun s e s' h => trivial
    obtain ⟨-, hrun⟩ | ⟨-, hrun⟩ := evalDef_cases n s
    · rw [hrun] at h
      cases h
      exact ⟨nofun, rfl⟩
    · rw [hrun] at h
      cases h
      exact ⟨id, rfl⟩
  | breakNode =>
    rw [ht] at hflag
    exact hflag _ (fun _ => rfl) fun _ => rfl
  | continueNode =>
    rw [ht] at hflag
    exact hflag _ (fun _ => rfl) fun _ => rfl
  | call => exact absurd ht hcall
  | returnNode => exact absurd ht hret
  | int | str | bool | var | unop | binop | print | input | intCast | range =>
    rw [ht] at hexpr
    exact absurd rfl hexpr

theorem returns_of_returning (hf : Formed nodes) (hnodes : s.nodes = nodes) (hs : s.returning = false)
    (h : eval fuel i s = .ok v s') (he' : s'.error = none) (hret : s'.returning = true) : ∃ w,
      Returns fuel i s w := by
  induction fuel generalizing i s v s' with
  | zero =>
    obtain ⟨-, rfl, -⟩ | ⟨k, -, -, ⟨⟩, -⟩ := eval_cases h
    rw [hs] at hret
    cases hret
  | succ fuel ih =>
    obtain ⟨-, rfl, -⟩ | ⟨k, c, n, hk, rfl, hn, he, h⟩ := eval_cases h
    · rw [hs] at hret
      cases hret
    cases hk
    have hmem : n ∈ nodes := hnodes ▸ List.mem_of_getElem? hn
    by_cases hcall : n.type = .call
    · rw [evalNode_call hcall] at h
      obtain ⟨f, args, s₁, u, w, u', -, -, -, hfalse, -⟩ := evalCall_ok h he'
      rw [hret] at hfalse
      cases hfalse
    by_cases hreturn : n.type = .returnNode
    · rw [evalNode, hreturn] at h
      obtain ⟨w, hval⟩ := returnValue_of_ok h he'
      exact ⟨w, fuel, c, s, n, .refl _ _ _ _, hn, hreturn, he, hval⟩
    -- otherwise the flag comes from a part, and that executes the return
    by_contra hno
    have hkept := (asks_calm hf hmem hcall hreturn fuel).keeps
      (I := fun x => x.error = none → x.returning = false)
      (fun x x' hcalm hx hx' => hcalm.returning.trans (hx (hcalm.error hx'))) ?_ (fun _ => hs) h he'
    · rw [hkept] at hret
      cases hret
    · intro l t hl hv ht r t' hask het'
      by_contra hne
      have htn := (visits_nodes hv).trans hnodes
      obtain ⟨w, hw⟩ := ih htn (ht (eval_error hask het')) hask het' (Bool.eq_true_of_not_eq_false hne)
      obtain hcomp | hexpr := hl
      · obtain ⟨k, j, x, m, hreach, hrest⟩ := hw
        exact hno ⟨w, k, j, x, m, .step hn he hcomp hv hreach, hrest⟩
      · exact not_returns_expr htn hexpr hw

/-- An expression leaves the flag clear. -/
theorem returning_expr (hf : Formed nodes) (hnodes : s.nodes = nodes) (hi : ExprAt nodes i)
    (hs : s.returning = false)
    (h : eval fuel i s = .ok v s') (he' : s'.error = none) : s'.returning = false := by
  by_contra hne
  obtain ⟨w, hw⟩ := returns_of_returning hf hnodes hs h he' (Bool.eq_true_of_not_eq_false hne)
  exact not_returns_expr hnodes hi hw

/-! Nothing is evaluated while the flag is set. -/

theorem returning_blockLoop (hv : Visits (fun ev => blockLoop ev cs last) ev s j t) (hs : s.returning = false) :
    t.returning = false := by
  induction cs generalizing s last with
  | nil => exact absurd hv (not_visits_act _)
  | cons c cs ih =>
    obtain ⟨-, rfl⟩ | ⟨v, s₁, -, hgo, hv⟩ := visits_blockLoop.mp hv
    · exact hs
    · refine ih hv ?_
      simp only [Run.halted, Bool.or_eq_false_iff] at hgo
      exact hgo.1.1.2

theorem returning_whileLoop (hf : Formed nodes) (hhead : ExprAt nodes n.children[0]?) (hnodes : s.nodes = nodes)
    (hv : Visits (fun ev => whileLoop ev n k result) (eval fuel) s j t)
    (hs : s.returning = false) : t.returning = false := by
  induction k generalizing s result with
  | zero => exact absurd hv (not_visits_act _)
  | succ k ih =>
    obtain ⟨-, rfl⟩ | ⟨cond, s₁, hcond, he, -, hv⟩ := visits_whileLoop.mp hv
    · exact hs
    obtain ⟨-, rfl⟩ | ⟨r, s₂, s₃, hrun, hon, hv⟩ := hv
    · exact returning_expr hf hnodes hhead hs hcond he
    · obtain ⟨hn₃, -, hret, -, -, hgo⟩ := loopGoesOn_ok hon
      exact ih (hn₃.trans ((eval_nodes hrun).trans ((eval_nodes hcond).trans hnodes))) hv
        (hret.trans (hgo rfl).2)

theorem returning_forLoop (hv : Visits (fun ev => forLoop ev n left z result) ev s j t)
    (hs : s.returning = false) :
    t.returning = false := by
  induction left generalizing s z result with
  | zero => exact absurd hv (not_visits_act _)
  | succ left ih =>
    obtain ⟨s₁, hset, hv⟩ := visits_forLoop.mp hv
    obtain ⟨-, rfl⟩ | ⟨r, s₂, s₃, -, hon, hv⟩ := hv
    · exact (setVar_plain hset).1.returning.trans hs
    · obtain ⟨-, -, hret, -, -, hgo⟩ := loopGoesOn_ok hon
      exact ih hv (hret.trans (hgo rfl).2)

/-- The arguments of a call are expressions. -/
theorem returning_evalCall (hf : Formed nodes) (hnodes : s.nodes = nodes)
    (hkids : ∀ c ∈ n.children, ExprAt nodes (some c))
    (hs : s.returning = false) (hv : Visits (fun ev => evalCall ev n) (eval fuel) s j t) (he : t.error = none) :
    t.returning = false := by
  have hasks : Asks (fun i => ∀ c ∈ i, c ∈ n.children) Plain (fun _ => True) fun ev => evalArgs ev n.children :=
    asks_evalArgs (fun _ _ h => h) fun c hc d hd => Option.some_inj.mp hd ▸ hc
  have hplain : ∀ x x' : Run, Plain x x' → x.nodes = nodes ∧ (x.error = none → x.returning = false) →
      x'.nodes = nodes ∧ (x'.error = none → x'.returning = false) := fun x x' hp hx =>
    ⟨hp.nodes.trans hx.1, fun he => hp.returning.trans (hx.2 (hp.error he))⟩
  have hanswer : ∀ i x, (∀ c ∈ i, c ∈ n.children) → x.nodes = nodes ∧ (x.error = none → x.returning = false) →
      ∀ r x', eval fuel i x = .ok r x' → x'.nodes = nodes ∧ (x'.error = none → x'.returning = false) := by
    intro i x hi hx r x' hrun
    refine ⟨(eval_nodes hrun).trans hx.1, fun he => ?_⟩
    exact returning_expr hf hx.1 (fun c hc => hkids c (hi c hc) c rfl) (hx.2 (eval_error hrun he)) hrun he
  obtain ⟨f, -, -, -, hv | ⟨args, s₁, hargs, hbind, -⟩⟩ := visits_evalCall.mp hv
  · exact (hasks.keeps_at hplain (fun i x hi _ => hanswer i x hi) ⟨hnodes, fun _ => hs⟩ hv).2 he
  · have hs₁ := hasks.keeps hplain (fun i x hi _ => hanswer i x hi) ⟨hnodes, fun _ => hs⟩ hargs
    obtain ⟨hp, -⟩ := bindParams_plain hbind
    exact hp.returning.trans (hs₁.2 (hp.error he))

theorem visits_returning (hf : Formed nodes) (hnodes : s.nodes = nodes) (hmem : n ∈ nodes)
    (hs : s.returning = false)
    (hv : Visits (fun ev => evalNode ev fuel n) (eval fuel) s j t)
    (he : t.error = none) : t.returning = false := by
  have hhead : n.type.hasHead = true → ExprAt nodes n.children[0]? := hf.heads n hmem
  have hsimple : n.type ≠ .call → n.type ≠ .returnNode → n.type.isCompound = false → t.returning = false := by
    intro hcall hret hcomp
    refine (asks_calm hf hmem hcall hret fuel).keeps_at (I := fun x => x.error = none → x.returning = false)
      (fun x x' hcalm hx hx' => hcalm.returning.trans (hx (hcalm.error hx')))
        (fun i x hi hvx hx r x' hrun hx' => ?_)
      (fun _ => hs) hv he
    rw [hcomp] at hi
    exact returning_expr hf ((visits_nodes hvx).trans hnodes) (hi.resolve_left nofun)
      (hx (eval_error hrun hx')) hrun hx'
  cases htype : n.type with
  | call =>
    exact returning_evalCall hf hnodes (hf.exprs n hmem (by rw [htype]; rfl)) hs
      ((visits_evalNode_call htype).mp hv) he
  | returnNode =>
    unfold evalNode evalReturn at hv
    simp only [htype] at hv
    cases hkids : n.children with
    | nil =>
      simp only [hkids] at hv
      exact absurd hv (not_visits_act _)
    | cons c cs =>
      simp only [hkids] at hv
      obtain ⟨-, rfl⟩ | ⟨r, x, -, hv⟩ := visits_ask_bind.mp hv
      · exact hs
      · exact absurd (visits_unlessError.mp hv).2 (not_visits_act _)
  | block =>
    unfold evalNode at hv
    simp only [htype] at hv
    exact returning_blockLoop hv hs
  | ifNode =>
    unfold evalNode at hv
    simp only [htype] at hv hhead
    obtain ⟨-, rfl⟩ | ⟨cond, hcond, -⟩ := visits_evalIf.mp hv
    · exact hs
    · exact returning_expr hf hnodes (hhead rfl) hs hcond he
  | whileNode =>
    unfold evalNode at hv
    simp only [htype] at hv hhead
    exact returning_whileLoop hf (hhead rfl) hnodes hv hs
  | forNode =>
    unfold evalNode at hv
    simp only [htype] at hv
    obtain hv | ⟨limit, s₁, hlimit, hv⟩ := visits_evalFor.mp hv
    · rw [← (visits_evalLimit hv).1]
      exact hs
    · obtain ⟨⟨⟩, -⟩ | ⟨he₁, k, w, hvk, hask⟩ := evalLimit_ok hlimit
      exact returning_forLoop hv (returning_expr hf hnodes (hf.limit hnodes hmem htype hvk) hs hask he₁)
  | int | str | bool | var | assign | unop | binop | print | input | intCast | defNode
  | breakNode | continueNode | range =>
    rw [htype] at hsimple
    exact hsimple nofun nofun rfl

theorem Evaluates.returning {via : NodeType → Prop} {fuel' : Nat} (hf : Formed nodes)
    (h : Evaluates via fuel i s fuel' j t)
    (hnodes : s.nodes = nodes) (hs : s.returning = false) (he : t.error = none) : t.returning = false := by
  refine (h.invariant (I := fun _ x => x.nodes = nodes ∧ (x.error = none → x.returning = false))
    (fun k c n x l y hn hx _ hv hI => ?_) ⟨hnodes, fun _ => hs⟩).2 he
  refine ⟨(visits_nodes hv).trans hI.1, fun hy => ?_⟩
  exact visits_returning hf hI.1 (hI.1 ▸ List.mem_of_getElem? hn) (hI.2 hx) hv hy

/-- The value of a call, given that of its body. -/
theorem rightValue_iff (hf : Formed nodes) (hnodes : s.nodes = nodes) (hs : s.returning = false)
    (h : eval fuel i s = .ok v s') (he : s'.error = none) :
    RightValue fuel i s (if s'.returning then s'.returnVal else v) ↔ (∃ w, Returns fuel i s w) ∨
    ¬ LeavesValue fuel i s := by
  have hends : ∀ {w}, Returns fuel i s w → s'.returning = true ∧ s'.returnVal = w := by
    intro w hw
    obtain ⟨s'', hrun, -, hret, hval⟩ := returns_ends hf hnodes hw
    rw [h] at hrun
    cases hrun
    exact ⟨hret, hval⟩
  by_cases hret : s'.returning = true
  · have hex := returns_of_returning hf hnodes hs h he hret
    rw [if_pos hret]
    exact ⟨fun _ => .inl hex, fun _ => ⟨fun hno => absurd hex hno, fun w hw => (hends hw).2⟩⟩
  · have hno : ∀ w, ¬ Returns fuel i s w := fun w hw => hret (hends hw).1
    rw [if_neg hret, leavesValue_iff h he, not_not]
    constructor
    · exact fun hright => .inr (hright.1 fun ⟨w, hw⟩ => hno w hw)
    · rintro (⟨w, hw⟩ | hv)
      · exact absurd hw (hno w)
      · exact ⟨fun _ => hv, fun w hw => absurd hw (hno w)⟩

variable {m : GkState} {src : List UInt8} {s₁ s₂ : Run} {root : Nat}

/-- Every call that a program comes to and that ends without an error has
evaluated the body of its function; its value is the right one exactly if a return
was executed there or the last statement left nothing behind. -/
theorem call_value_iff (hl : gkLex src (begun m) = .ok () s₁) (hp : gkParse s₁ = .ok root s₂) :
    ∀ k c t n v t', Evaluates (fun _ => True) fuel (some root) s₂ (k + 1) (some c) t →
    t.nodes[c]? = some n → n.type = .call →
      t.error = none → eval (k + 1) (some c) t = .ok v t' → t'.error = none →
        ∃ b u, Enters k c t b u ∧ (RightValue k b u v ↔ (∃ w, Returns k b u w) ∨ ¬ LeavesValue k b u) := by
  intro k c t n v t' hreach hn htype he hrun he'
  have hf := gkParse_formed hp
  have hr := hreach.ready (ready_parsed hl hp) he
  rw [eval_node hn he, evalNode_call htype] at hrun
  obtain ⟨f, args, x, u, w, u', hcall, rfl, heu', -⟩ := evalCall_ok hrun he'
  have henters := hcall.enters hr.depth hn htype he
  obtain ⟨n', hn', -, -, hv, -⟩ := id henters
  have hbody : Evaluates (fun _ => True) fuel (some root) s₂ k f.bodyNode u :=
    hreach.trans (.step hn' he trivial hv (.refl _ _ _ _))
  have hret : u.returning = false :=
    hbody.returning hf rfl (shows_parsed hl hp).returning (eval_error hcall.body heu')
  exact ⟨f.bodyNode, u, henters, rightValue_iff hf ((visits_nodes hv).trans hr.nodes_eq) hret hcall.body heu'⟩

def earlyReturnSource : List UInt8 := ascii "def f(x):\n if x:\n  return x\n 5\nf(2)\n"

/-- The body of the function of the call `n`, with the state in which it is evaluated. -/
private def calledBody (fuel : Nat) (n : Node) (t : Run) : Option (Option Nat × Run) :=
  match findFunc t.funcs n.strVal, evalArgs (eval fuel) n.children t with
  | some f, .ok (some args) x =>
    match bindParams (f.params.zip args) x.entered with
    | .ok true u => some (f.bodyNode, u)
    | _ => none
  | _, _ => none

private theorem calledBody_of_enters {c : Nat} {t u : Run} {n : Node} {b : Option Nat} (hd : 0 ≤ t.callDepth)
    (hn : t.nodes[c]? = some n) (h : Enters fuel c t b u) : calledBody fuel n t = some (b, u) := by
  obtain ⟨n', f, args, x, hn', -, -, hfunc, -, -, hargs, hbind, rfl⟩ := (enters_iff hd).mp h
  obtain rfl : n = n' := Option.some.inj (hn.symm.trans hn')
  simp only [calledBody, hfunc, hargs, hbind]

/-- The call gives 2, and its body ends at a return. -/
private def returnsTwo (c : Nat) (t : Run) : Bool :=
  t.error = none && (t.nodes[c]?.any fun n => n.type = .call && (calledBody 9 n t).any fun (b, u) =>
    u.returning = false && match eval 9 b u with
      | .ok _ u' => u'.error = none && u'.returning
      | .error _ _ => false) &&
    match eval 10 (some c) t with
    | .ok v t' => v = .int 2 && t'.error = none
    | .error _ _ => false

private theorem earlyReturnSource_runs : (parsed earlyReturnSource).any (fun (_, root, s₂) =>
    (secondStatement 10 root s₂).any fun (c, t) => returnsTwo c t) = true := by
  decide +kernel

/-- The value is that of the return, which leaves the last statement out. -/
theorem call_value_iff_return : ∃ s₁ s₂ root, gkLex earlyReturnSource (begun (freshState [])) = .ok () s₁ ∧
    gkParse s₁ = .ok root s₂ ∧ ∃ c t b u, Evaluates (fun _ => True) 11 (some root) s₂ 10 (some c) t ∧
    Enters 9 c t b u ∧
      Returns 9 b u (.int 2) ∧ RightValue 9 b u (.int 2) := by
  obtain ⟨⟨s₁, root, s₂⟩, hsome, hruns⟩ := (Option.any_eq_true _ _).mp earlyReturnSource_runs
  obtain ⟨hl, hp⟩ := parsed_eq_some hsome
  obtain ⟨⟨c, t⟩, hsecond, htwo⟩ := (Option.any_eq_true _ _).mp hruns
  have hreach := evaluates_second hsecond (shows_parsed hl hp).error
  simp only [returnsTwo, Bool.and_eq_true, decide_eq_true_eq] at htwo
  obtain ⟨⟨he, hcall⟩, hrun⟩ := htwo
  obtain ⟨n, hn, hcall⟩ := (Option.any_eq_true _ _).mp hcall
  simp only [Bool.and_eq_true, decide_eq_true_eq] at hcall
  obtain ⟨htype, hbody⟩ := hcall
  cases heval : eval 10 (some c) t with
  | error e t' =>
    rw [heval] at hrun
    cases hrun
  | ok v t' =>
    simp only [heval, Bool.and_eq_true, decide_eq_true_eq] at hrun
    obtain ⟨rfl, he'⟩ := hrun
    obtain ⟨b, u, henters, hiff⟩ := call_value_iff hl hp 9 c t n _ t' hreach hn htype he heval he'
    have hr := hreach.ready (ready_parsed hl hp) he
    rw [calledBody_of_enters hr.depth hn henters, Option.any_some] at hbody
    simp only [Bool.and_eq_true, decide_eq_true_eq] at hbody
    obtain ⟨hclear, hends⟩ := hbody
    cases hinner : eval 9 b u with
    | error e u' =>
      rw [hinner] at hends
      cases hends
    | ok w u' =>
      simp only [hinner, Bool.and_eq_true, decide_eq_true_eq] at hends
      obtain ⟨n', -, -, -, hv, -⟩ := id henters
      have hnodes : u.nodes = s₂.nodes := (visits_nodes hv).trans hr.nodes_eq
      obtain ⟨z, hz⟩ := returns_of_returning (gkParse_formed hp) hnodes hclear hinner hends.1 hends.2
      have hright := hiff.mpr (.inl ⟨z, hz⟩)
      obtain rfl := hright.2 z hz
      exact ⟨s₁, s₂, root, hl, hp, c, t, b, u, hreach, henters, hz, hright⟩

/-- A function without a return, whose last statement is an expression. -/
def leftoverSource : List UInt8 := ascii "def f():\n 5\nf()\n"

private def givesFive (c : Nat) (t : Run) : Bool :=
  t.error = none && (t.nodes.all fun n => n.type ≠ .returnNode) && (t.nodes[c]?.any fun n => n.type = .call) &&
    match eval 10 (some c) t with
    | .ok v t' => v = .int 5 && t'.error = none
    | .error _ _ => false

private theorem leftoverSource_runs : (parsed leftoverSource).any (fun (_, root, s₂) =>
    (secondStatement 10 root s₂).any fun (c, t) => givesFive c t) = true := by
  decide +kernel

theorem leftover_is_call_value : ∃ s₁ s₂ root, gkLex leftoverSource (begun (freshState [])) = .ok () s₁ ∧
    gkParse s₁ = .ok root s₂ ∧ ∃ k c t n v t', Evaluates (fun _ => True) 11 (some root) s₂ (k + 1) (some c) t ∧
      t.nodes[c]? = some n ∧ n.type = .call ∧ t.error = none ∧ eval (k + 1) (some c) t = .ok v t' ∧
      t'.error = none ∧
        ∀ b u, Enters k c t b u → (∀ w, ¬ Returns k b u w) ∧ v ≠ .none ∧ ¬ RightValue k b u v := by
  obtain ⟨⟨s₁, root, s₂⟩, hsome, hruns⟩ := (Option.any_eq_true _ _).mp leftoverSource_runs
  obtain ⟨hl, hp⟩ := parsed_eq_some hsome
  obtain ⟨⟨c, t⟩, hsecond, hfive⟩ := (Option.any_eq_true _ _).mp hruns
  have hreach := evaluates_second hsecond (shows_parsed hl hp).error
  simp only [givesFive, Bool.and_eq_true, decide_eq_true_eq] at hfive
  obtain ⟨⟨⟨he, hnone⟩, htype⟩, hrun⟩ := hfive
  obtain ⟨n, hn, htype⟩ := (Option.any_eq_true _ _).mp htype
  cases heval : eval 10 (some c) t with
  | error e t' =>
    rw [heval] at hrun
    cases hrun
  | ok v t' =>
    simp only [heval, Bool.and_eq_true, decide_eq_true_eq] at hrun
    obtain ⟨rfl, he'⟩ := hrun
    refine ⟨s₁, s₂, root, hl, hp, 9, c, t, n, _, t', hreach, hn, of_decide_eq_true htype, he, heval,
      he', fun b u henters => ?_⟩
    -- no node of the program is a return
    have hno : ∀ w, ¬ Returns 9 b u w := by
      rintro w ⟨k, j, x, m, hx, hm, hmtype, -⟩
      obtain ⟨n', -, -, -, hv, -⟩ := henters
      rw [hx.nodes_eq, visits_nodes hv] at hm
      have := List.all_eq_true.mp hnone m (List.mem_of_getElem? hm)
      rw [hmtype] at this
      cases this
    exact ⟨hno, nofun, fun hright => nomatch hright.1 fun ⟨w, hw⟩ => hno w hw⟩

end GeckoOS.Gk
