import GeckoOS.Gk.Activations

/-! Where a break or continue takes effect: the flags behind a call. -/
namespace GeckoOS.Gk
open Lib

/-- The three flags of a state. -/
structure Marks (s : Run) (returning breaking continuing : Bool) : Prop where
  returning : s.returning = returning
  breaking : s.breaking = breaking
  continuing : s.continuing = continuing

/-- No flag is set. -/
def Run.Clean (s : Run) : Prop := Marks s false false false

def NodeType.isJump (type : NodeType) : Prop := type = .breakNode ∨ type = .continueNode
def NodeType.isBranch (type : NodeType) : Prop := type = .block ∨ type = .ifNode

/-- Through blocks and branches, but into no loop, the evaluation comes to a break or continue. -/
def ComesToJump (fuel : Nat) (i : Option Nat) (s : Run) : Prop :=
  ∃ k j t n, Evaluates NodeType.isBranch fuel i s (k + 1) (some j) t ∧ t.nodes[j]? = some n ∧
  n.type.isJump ∧ t.error = none

/-- The call `c` in `t` comes to one in the body of its function, outside of the loops there. -/
def Strays (fuel c : Nat) (t : Run) : Prop := ∃ b u, Enters fuel c t b u ∧ ComesToJump fuel b u

/-- Every call in this evaluation, itself included, that begins with no flag set
and ends without an error leaves none set. -/
def CallsKeepFlags (fuel : Nat) (i : Option Nat) (s : Run) : Prop :=
  ∀ k c t n v t', Evaluates (fun _ => True) fuel i s (k + 1) (some c) t → t.nodes[c]? = some n →
  n.type = .call → t.error = none →
    t.Clean → eval (k + 1) (some c) t = .ok v t' → t'.error = none → t'.Clean

/-- No call in this evaluation that begins so strays. -/
def NoCallStrays (fuel : Nat) (i : Option Nat) (s : Run) : Prop :=
  ∀ k c t, Evaluates (fun _ => True) fuel i s (k + 1) (some c) t → t.Clean → ¬ Strays k c t

variable {nodes : List Node} {fuel left c k : Nat} {cs : List Nat} {i j : Option Nat}
  {s s' t t' u : Run} {n : Node}
  {v w last result : Value} {z : Int} {ev : Option Nat → GkM Value}

theorem Plain.clean (h : Plain s s') (hs : s.Clean) : s'.Clean :=
  ⟨h.returning.trans hs.returning, h.breaking.trans hs.breaking, h.continuing.trans hs.continuing⟩

theorem clean_of_not_halted (h : s.halted = false) : s.error = none ∧ s.Clean := by
  simp only [Run.halted, Bool.or_eq_false_iff] at h
  obtain ⟨⟨⟨he, hr⟩, hb⟩, hc⟩ := h
  exact ⟨by simpa using he, hr, hb, hc⟩

/-! The tests behind a loop body. -/

theorem loopGoesOn_clean (h : s.Clean) (he : s.error = none) : loopGoesOn s = .ok true s := by
  rw [loopGoesOn, bind_ok (get_apply s), he, h.returning, h.breaking, h.continuing]
  rfl

theorem loopGoesOn_breaking (h : Marks s false true false) (he : s.error = none) :
    ∃ s', loopGoesOn s = .ok false s' ∧ s'.Clean := by
  rw [loopGoesOn, bind_ok (get_apply s), he, h.returning, h.breaking]
  exact ⟨_, rfl, h.returning, rfl, h.continuing⟩

theorem loopGoesOn_continuing (h : Marks s false false true) (he : s.error = none) :
    ∃ s', loopGoesOn s = .ok true s' ∧ s'.Clean ∧ s'.error = none := by
  rw [loopGoesOn, bind_ok (get_apply s), he, h.returning, h.breaking, h.continuing]
  exact ⟨_, rfl, ⟨h.returning, h.breaking, rfl⟩, he⟩

/-! The flags behind an evaluation in which no call strays. -/

/-- None of them, that of a return, or that of a jump which the evaluation comes to. -/
def Settled (jumps : Prop) (s' : Run) : Prop :=
  s'.Clean ∨ Marks s' true false false ∨ (Marks s' false true false ∨ Marks s' false false true) ∧ jumps

theorem Settled.imp {jumps jumps' : Prop} (h : Settled jumps s') (himp : jumps → jumps') : Settled jumps' s' :=
  h.imp_right (.imp_right (.imp_right himp))

theorem Settled.of_loop {jumps : Prop} (h : s'.Clean ∨ Marks s' true false false) : Settled jumps s' :=
  h.imp_right .inl

/-- What holds of an evaluation that begins with no flag set. -/
def Settles (nodes : List Node) (fuel : Nat) (j : Option Nat) (t : Run) : Prop :=
  t.error = none → t.Clean → ∀ w t', eval fuel j t = .ok w t' → t'.error = none →
    (ExprAt nodes j → t'.Clean) ∧ Settled (ComesToJump fuel j t) t'

theorem settled_blockLoop
    (H : ∀ j t, Visits (fun ev => blockLoop ev cs last) (eval fuel) s j t → Settles nodes fuel j t)
    (he : s.error = none) (hs : s.Clean) (h : blockLoop (eval fuel) cs last s = .ok v s')
    (he' : s'.error = none) :
    Settled (∃ c t, Visits (fun ev => blockLoop ev cs last) (eval fuel) s c t ∧ ComesToJump fuel c t) s' := by
  induction cs generalizing s last with
  | nil =>
    cases h
    exact .inl hs
  | cons c cs ih =>
    obtain ⟨w, s₁, hrun, -⟩ := bind_eq_ok h
    rw [blockLoop_cons hrun] at h
    have hhead : Visits (fun ev => blockLoop ev (c :: cs) last) (eval fuel) s (some c) s :=
      visits_blockLoop.mpr (.inl ⟨rfl, rfl⟩)
    split at h
    · cases h
      exact (H _ _ hhead he hs v s' hrun he').2.imp fun hjump => ⟨_, _, hhead, hjump⟩
    · next hgo =>
      have hgo := Bool.eq_false_of_not_eq_true hgo
      obtain ⟨he₁, hs₁⟩ := clean_of_not_halted hgo
      have hshift : ∀ {j t}, Visits (fun ev => blockLoop ev cs w) (eval fuel) s₁ j t →
          Visits (fun ev => blockLoop ev (c :: cs) last) (eval fuel) s j t := fun hv =>
        visits_blockLoop.mpr (.inr ⟨w, s₁, hrun, hgo, hv⟩)
      refine (ih (fun j t hv => H j t (hshift hv)) he₁ hs₁ h).imp ?_
      rintro ⟨d, x, hv, hjump⟩
      exact ⟨d, x, hshift hv, hjump⟩

/-- Behind its body a loop takes up the jump that was made there. -/
theorem settled_goesOn {rest : GkM Value} {jumps : Prop} (hset : s.error = none → Settled jumps s)
    (h : (do if ← loopGoesOn then rest else return result : GkM Value) s = .ok v s') (he' : s'.error = none) :
    (s'.Clean ∨ Marks s' true false false) ∨ ∃ t, loopGoesOn s = .ok true t ∧ t.Clean ∧ t.error = none ∧
    rest t = .ok v s' := by
  cases he : s.error with
  | some x =>
    have hstop : loopGoesOn s = .ok false s := by
      rw [loopGoesOn, bind_ok (get_apply s), he]
      rfl
    rw [bind_ok hstop] at h
    cases h
    rw [he] at he'
    cases he'
  | none =>
    obtain hclean | hret | ⟨hbrk | hcont, -⟩ := hset he
    · have hon := loopGoesOn_clean hclean he
      rw [bind_ok hon] at h
      exact .inr ⟨s, hon, hclean, he, h⟩
    · rw [bind_ok (loopGoesOn_returning hret.returning)] at h
      cases h
      exact .inl (.inr hret)
    · obtain ⟨t, hoff, hclean⟩ := loopGoesOn_breaking hbrk he
      rw [bind_ok hoff] at h
      cases h
      exact .inl (.inl hclean)
    · obtain ⟨t, hon, hclean, he₁⟩ := loopGoesOn_continuing hcont he
      rw [bind_ok hon] at h
      exact .inr ⟨t, hon, hclean, he₁, h⟩

theorem settled_whileLoop {b : Nat} (hhead : ExprAt nodes n.children[0]?)
    (H : ∀ j t, Visits (fun ev => whileLoop ev n b result) (eval fuel) s j t → Settles nodes fuel j t)
    (he : s.error = none) (hs : s.Clean) (h : whileLoop (eval fuel) n b result s = .ok v s')
    (he' : s'.error = none) :
    s'.Clean ∨ Marks s' true false false := by
  induction b generalizing s result with
  | zero => cases h
  | succ b ih =>
    obtain ⟨cond, s₁, hcond, h⟩ := bind_eq_ok h
    rw [bind_ok (get_apply s₁)] at h
    have hcondClean := H _ _ (visits_whileLoop.mpr (.inl ⟨rfl, rfl⟩)) he hs cond s₁ hcond
    split at h
    · cases h
      exact .inl ((hcondClean he').1 hhead)
    · next hgo =>
      rw [Bool.or_eq_true, not_or] at hgo
      have he₁ : s₁.error = none := by simpa using hgo.1
      have hs₁ := (hcondClean he₁).1 hhead
      have htruthy : isTruthy cond = true := by simpa using hgo.2
      obtain ⟨r, s₂, hbody, h⟩ := bind_eq_ok h
      have hnext : ∀ {s₃ j t}, loopGoesOn s₂ = .ok true s₃ →
        Visits (fun ev => whileLoop ev n b r) (eval fuel) s₃ j t →
          Visits (fun ev => whileLoop ev n (b + 1) result) (eval fuel) s j t := fun hon hv =>
        visits_whileLoop.mpr (.inr ⟨cond, s₁, hcond, he₁, htruthy, .inr ⟨r, s₂, _, hbody, hon, hv⟩⟩)
      have hsettles :=
        H _ _ (visits_whileLoop.mpr (.inr ⟨cond, s₁, hcond, he₁, htruthy, .inl ⟨rfl, rfl⟩⟩)) he₁ hs₁ r s₂ hbody
      obtain hdone | ⟨s₃, hon, hs₃, he₃, h⟩ := settled_goesOn (fun he₂ => (hsettles he₂).2) h he'
      · exact hdone
      · exact ih (fun j t hv => H j t (hnext hon hv)) he₃ hs₃ h

theorem settled_forLoop
    (H : ∀ j t, Visits (fun ev => forLoop ev n left z result) (eval fuel) s j t → Settles nodes fuel j t)
    (hs : s.Clean) (h : forLoop (eval fuel) n left z result s = .ok v s') (he' : s'.error = none) :
    s'.Clean ∨ Marks s' true false false := by
  induction left generalizing s z result with
  | zero =>
    cases h
    exact .inl hs
  | succ left ih =>
    obtain ⟨b, s₁, hset, h⟩ := bind_eq_ok h
    obtain ⟨hplain, -⟩ := setVar_plain hset
    have hs₁ := hplain.clean hs
    cases b with
    | false =>
      cases h
      exact .inl hs₁
    | true =>
      obtain ⟨r, s₂, hbody, h⟩ := bind_eq_ok h
      have hnext : ∀ {s₃ j t}, loopGoesOn s₂ = .ok true s₃ →
        Visits (fun ev => forLoop ev n left (z + 1) r) (eval fuel) s₃ j t →
          Visits (fun ev => forLoop ev n (left + 1) z result) (eval fuel) s j t := fun hon hv =>
        visits_forLoop.mpr ⟨s₁, hset, .inr ⟨r, s₂, _, hbody, hon, hv⟩⟩
      have hsettles := H _ _ (visits_forLoop.mpr ⟨s₁, hset, .inl ⟨rfl, rfl⟩⟩)
      obtain hdone | ⟨s₃, hon, hs₃, -, h⟩ :=
        settled_goesOn (fun he₂ => (hsettles (eval_error hbody he₂) hs₁ r s₂ hbody he₂).2) h he'
      · exact hdone
      · exact ih (fun j t hv => H j t (hnext hon hv)) hs₃ h

theorem settled_evalFor (hlimit : ∀ k t, Visits (fun ev => evalLimit ev n) (eval fuel) s k t → ExprAt nodes k)
    (H : ∀ j t, Visits (fun ev => evalFor ev n) (eval fuel) s j t → Settles nodes fuel j t)
    (he : s.error = none) (hs : s.Clean) (h : evalFor (eval fuel) n s = .ok v s') (he' : s'.error = none) :
    s'.Clean ∨ Marks s' true false false := by
  obtain ⟨limit, s₁, hrun, h⟩ := bind_eq_ok h
  obtain ⟨rfl, hne⟩ | ⟨he₁, k, w, hv, hask⟩ := evalLimit_ok hrun
  · cases h
    exact absurd he' hne
  · have hs₁ := (H k s (visits_evalFor.mpr (.inl hv)) he hs w s₁ hask he₁).1 (hlimit k s hv)
    cases limit with
    | none =>
      cases h
      exact .inl hs₁
    | some limit =>
      exact settled_forLoop (fun j t hv => H j t (visits_evalFor.mpr (.inr ⟨limit, s₁, hrun, hv⟩))) hs₁ h he'

/-- The value of an assignment is that of an expression. -/
theorem clean_evalAssign (hhead : ExprAt nodes n.children[0]?) (H : Settles nodes fuel n.children[0]? s)
    (he : s.error = none)
    (hs : s.Clean) (h : evalAssign (eval fuel) n s = .ok v s') (he' : s'.error = none) : s'.Clean := by
  obtain ⟨w, s₁, hrun, h⟩ := bind_eq_ok h
  rw [unlessError, bind_ok (get_apply s₁)] at h
  split at h
  · cases h
    exact (H he hs w s' hrun he').1 hhead
  · next hgo =>
    have hs₁ := (H he hs w s₁ hrun (by simpa using hgo)).1 hhead
    obtain ⟨b, s₂, hset, h⟩ := bind_eq_ok h
    have hs₂ := (setVar_plain hset).1.clean hs₁
    cases b with
    | true =>
      cases h
      exact hs₂
    | false =>
      cases h
      exact hs₂

theorem settled_evalReturn (hhead : ExprAt nodes n.children[0]?)
    (H : ∀ j t, Visits (fun ev => evalReturn ev n) (eval fuel) s j t → Settles nodes fuel j t)
    (he : s.error = none)
    (hs : s.Clean) (h : evalReturn (eval fuel) n s = .ok v s')
    (he' : s'.error = none) : Marks s' true false false := by
  unfold evalReturn at h H
  cases hkids : n.children with
  | nil =>
    rw [hkids] at h
    cases h
    exact ⟨rfl, hs.breaking, hs.continuing⟩
  | cons c cs =>
    rw [hkids] at h H hhead
    obtain ⟨w, s₁, hrun, h⟩ := bind_eq_ok h
    rw [unlessError, bind_ok (get_apply s₁)] at h
    split at h
    · next hne =>
      cases h
      rw [he'] at hne
      cases hne
    · next hgo =>
      have hs₁ := (H _ _ (visits_ask_bind.mpr (.inl ⟨rfl, rfl⟩)) he hs w s₁ hrun (by simpa using hgo)).1 hhead
      cases h
      exact ⟨rfl, hs₁.breaking, hs₁.continuing⟩

theorem settled_evalIf (hhead : ExprAt nodes n.children[0]?)
    (H : ∀ j t, Visits (fun ev => evalIf ev n) (eval fuel) s j t → Settles nodes fuel j t)
    (he : s.error = none) (hs : s.Clean) (h : evalIf (eval fuel) n s = .ok v s') (he' : s'.error = none) :
    Settled (∃ c t, Visits (fun ev => evalIf ev n) (eval fuel) s c t ∧ ComesToJump fuel c t) s' := by
  obtain ⟨cond, s₁, hcond, h⟩ := bind_eq_ok h
  have hclean := H _ _ (visits_evalIf.mpr (.inl ⟨rfl, rfl⟩)) he hs cond s₁ hcond
  rw [unlessError, bind_ok (get_apply s₁)] at h
  split at h
  · cases h
    exact .inl ((hclean he').1 hhead)
  · next hgo =>
    have he₁ : s₁.error = none := by simpa using hgo
    have hs₁ := (hclean he₁).1 hhead
    have hbranch : ∀ {k : Option Nat}, Visits (fun ev => evalIf ev n) (eval fuel) s k s₁ →
      eval fuel k s₁ = .ok v s' →
        Settled (∃ c t, Visits (fun ev => evalIf ev n) (eval fuel) s c t ∧ ComesToJump fuel c t) s' := by
      exact fun hv hrun => (H _ s₁ hv he₁ hs₁ v s' hrun he').2.imp fun hjump => ⟨_, s₁, hv, hjump⟩
    split at h
    · next hc => exact hbranch (visits_evalIf.mpr (.inr ⟨cond, hcond, he₁, by rw [if_pos hc]⟩)) h
    · next hc =>
      split at h
      · next hlen =>
        exact hbranch (visits_evalIf.mpr (.inr ⟨cond, hcond, he₁, by rw [if_neg hc]; exact ⟨hlen, rfl⟩⟩)) h
      · cases h
        exact .inl hs₁

/-- A call that does not stray takes up the return of its function. -/
theorem clean_evalCall (hkids : ∀ c ∈ n.children, ExprAt nodes (some c))
    (H : ∀ j t, Visits (fun ev => evalCall ev n) (eval fuel) s j t → Settles nodes fuel j t)
    (hstray : ∀ b u, Visits (fun ev => evalCall ev n) (eval fuel) s b u →
      u.callDepth = s.callDepth + 1 → ¬ ComesToJump fuel b u)
    (hd : 0 ≤ s.callDepth) (he : s.error = none)
    (hs : s.Clean) (h : evalCall (eval fuel) n s = .ok v s') (he' : s'.error = none) : s'.Clean := by
  obtain ⟨f, args, s₁, u, w, u', hcall, -, heu', hret, hbrk, hcont⟩ := evalCall_ok h he'
  have hbody : Visits (fun ev => evalCall ev n) (eval fuel) s f.bodyNode u :=
    visits_evalCall.mpr ⟨f, hcall.func, hcall.length, hcall.depth,
      .inr ⟨args, s₁, hcall.given, hcall.bound, rfl⟩⟩
  have heu := eval_error hcall.body heu'
  obtain ⟨hplain, hdepth⟩ := bindParams_plain hcall.bound
  -- the arguments are expressions
  have hs₁ : s₁.Clean := by
    have hasks : Asks (fun i => ∀ c ∈ i, c ∈ n.children) Plain (fun _ => True) fun ev =>
      evalArgs ev n.children :=
      asks_evalArgs (fun _ _ h => h) fun c hc d hd => Option.some_inj.mp hd ▸ hc
    refine hasks.keeps (I := fun x => x.error = none → x.Clean)
      (fun x x' hp hx hx' => hp.clean (hx (hp.error hx')))
      (fun i t hi hv ht r t' hrun ht' => ?_) (fun _ => hs) hcall.given (hplain.error heu)
    have het := eval_error hrun ht'
    refine (H i t ?_ het (ht het) r t' hrun ht').1 fun c hc => hkids c (hi c hc) c rfl
    exact visits_evalCall.mpr ⟨f, hcall.func, hcall.length, hcall.depth, .inl hv⟩
  have hdepth₁ := (stepped_evalArgs (stepped_eval fuel) hd n.children he).1.ok _ _ hcall.given
  have hu : u.Clean := hplain.clean (s := s₁.entered) ⟨hs₁.returning, hs₁.breaking, hs₁.continuing⟩
  obtain hclean | hmark | ⟨-, hjump⟩ := (H _ u hbody heu hu w u' hcall.body heu').2
  · exact ⟨hret, hbrk.trans hclean.breaking, hcont.trans hclean.continuing⟩
  · exact ⟨hret, hbrk.trans hmark.breaking, hcont.trans hmark.continuing⟩
  · refine absurd hjump (hstray _ u hbody ?_)
    rw [hdepth, ← hdepth₁]
    rfl

/-- What a node does, given what its questions do: an expression leaves no flag. -/
theorem settled_evalNode (hf : Formed nodes) (hnodes : s.nodes = nodes) (hmem : n ∈ nodes)
    (hd : 0 ≤ s.callDepth)
    (H : ∀ j t, Visits (fun ev => evalNode ev fuel n) (eval fuel) s j t → Settles nodes fuel j t)
    (hstray : n.type = .call → ∀ b u, Visits (fun ev => evalNode ev fuel n) (eval fuel) s b u →
      u.callDepth = s.callDepth + 1 →
      ¬ ComesToJump fuel b u)
    (he : s.error = none) (hs : s.Clean) (h : evalNode (eval fuel) fuel n s = .ok v s')
    (he' : s'.error = none) :
    (n.type.isExpr = true ∧ s'.Clean) ∨ n.type.isExpr = false ∧ Settled (n.type.isJump ∨
      n.type.isBranch ∧ ∃ d t, Visits (fun ev => evalNode ev fuel n) (eval fuel) s d t ∧
      ComesToJump fuel d t) s' := by
  have hhead : n.type.hasHead = true → ExprAt nodes n.children[0]? := hf.heads n hmem
  have hkids : n.type.isExpr = true → ∀ c ∈ n.children, ExprAt nodes (some c) := hf.exprs n hmem
  have hexpr : n.type.isExpr = true → n.type ≠ .call → s'.Clean := by
    intro htype hcall
    refine (asks_expr htype hcall fuel).keeps (I := fun x => x.error = none → x.Clean)
      (fun x x' hp hx hx' => hp.clean (hx (hp.error hx'))) (fun i t hi hv ht r t' hask ht' => ?_)
        (fun _ => hs) h he'
    have het := eval_error hask ht'
    exact (H i t hv het (ht het) r t' hask ht').1 fun d hd => hkids htype d (hi d hd) d rfl
  unfold evalNode at h H hstray ⊢
  cases htype : n.type with
  | int | str | bool | var | unop | binop | print | input | intCast | range =>
    rw [htype] at hexpr
    exact .inl ⟨rfl, hexpr rfl nofun⟩
  | call =>
    simp only [htype] at h H hstray hkids
    exact .inl ⟨rfl, clean_evalCall (hkids rfl) H (hstray trivial) hd he hs h he'⟩
  | assign =>
    simp only [htype] at h H hhead
    exact .inr ⟨rfl, .inl (clean_evalAssign (hhead rfl) (H _ _ (visits_ask_bind.mpr (.inl ⟨rfl, rfl⟩)))
      he hs h he')⟩
  | returnNode =>
    simp only [htype] at h H hhead
    exact .inr ⟨rfl, .inr (.inl (settled_evalReturn (hhead rfl) H he hs h he'))⟩
  | defNode =>
    simp only [htype] at h
    obtain ⟨-, hrun⟩ | ⟨-, hrun⟩ := evalDef_cases n s
    · rw [hrun] at h
      cases h
      cases he'
    · rw [hrun] at h
      cases h
      exact .inr ⟨rfl, .inl ⟨hs.returning, hs.breaking, hs.continuing⟩⟩
  | breakNode =>
    simp only [htype] at h
    cases h
    exact .inr ⟨rfl, .inr (.inr ⟨.inl ⟨hs.returning, rfl, hs.continuing⟩, .inl (.inl rfl)⟩)⟩
  | continueNode =>
    simp only [htype] at h
    cases h
    exact .inr ⟨rfl, .inr (.inr ⟨.inr ⟨hs.returning, hs.breaking, rfl⟩, .inl (.inr rfl)⟩)⟩
  | block =>
    simp only [htype] at h H
    refine .inr ⟨rfl, (settled_blockLoop H he hs h he').imp fun hv => .inr ⟨.inl rfl, hv⟩⟩
  | ifNode =>
    simp only [htype] at h H hhead
    refine .inr ⟨rfl, (settled_evalIf (hhead rfl) H he hs h he').imp fun hv => .inr ⟨.inr rfl, hv⟩⟩
  | whileNode =>
    simp only [htype] at h H hhead
    exact .inr ⟨rfl, .of_loop (settled_whileLoop (hhead rfl) H he hs h he')⟩
  | forNode =>
    simp only [htype] at h H
    exact .inr ⟨rfl, .of_loop (settled_evalFor (fun k t => hf.limit hnodes hmem htype) H he hs h he')⟩

theorem settles_eval (hf : Formed nodes) (hr : Ready nodes s) (hstray : NoCallStrays fuel i s) :
    Settles nodes fuel i s := by
  induction fuel generalizing i s with
  | zero =>
    intro he hs w t' hrun he'
    obtain ⟨-, rfl, -⟩ | ⟨k, -, -, ⟨⟩, -⟩ := eval_cases hrun
    exact ⟨fun _ => hs, .inl hs⟩
  | succ fuel ih =>
    intro he hs w t' hrun he'
    obtain ⟨-, rfl, -⟩ | ⟨k, c, n, hk, rfl, hn, -, hrun⟩ := eval_cases hrun
    · exact ⟨fun _ => hs, .inl hs⟩
    cases hk
    have hmem : n ∈ nodes := hr.nodes_eq ▸ List.mem_of_getElem? hn
    have H : ∀ j t, Visits (fun ev => evalNode ev fuel n) (eval fuel) s j t → Settles nodes fuel j t := by
      intro j t hv ht
      have hstep : Evaluates (fun _ => True) (fuel + 1) (some c) s fuel j t :=
        .step hn he trivial hv (.refl _ _ _ _)
      exact ih (hstep.ready hr ht) (fun k d x hreach => hstray k d x (hstep.trans hreach)) ht
    obtain ⟨-, hclean⟩ | ⟨hstmt, hset⟩ := settled_evalNode hf hr.nodes_eq hmem hr.depth H (fun htype b u
      hv hdepth hjump =>
      hstray fuel c s (.refl _ _ _ _) hs ⟨b, u, ⟨n, hn, htype, he, hv, hdepth⟩, hjump⟩) he hs hrun he'
    · exact ⟨fun _ => hclean, .inl hclean⟩
    · refine ⟨fun hat => ?_, hset.imp ?_⟩
      · obtain ⟨m, hm, hmtype⟩ := hat c rfl
        rw [← hr.nodes_eq, hn] at hm
        cases hm
        rw [hstmt] at hmtype
        cases hmtype
      · rintro (hjump | ⟨hbranch, d, t, hv, k, j, x, m, hreach, hm⟩)
        · exact ⟨fuel, c, s, n, .refl _ _ _ _, hn, hjump, he⟩
        · exact ⟨k, j, x, m, .step hn he hbranch hv hreach, hm⟩

/-! A jump that an evaluation comes to ends it, with its flag. -/

/-- A jump has been made. -/
def Run.Jumped (s : Run) : Prop := s.error = none ∧ (s.breaking = true ∨ s.continuing = true)

theorem Run.Jumped.halted (h : s.Jumped) : s.halted = true := by
  obtain ⟨-, hb | hc⟩ := h
  · simp [Run.halted, hb]
  · simp [Run.halted, hc]

/-- From an expression one comes to no jump. -/
theorem not_comesToJump_expr (hnodes : s.nodes = nodes) (hi : ExprAt nodes i) : ¬ ComesToJump fuel i s := by
  rintro ⟨k, j, t, m, hreach, hm, hjump, -⟩
  obtain ⟨rfl, rfl⟩ := hreach.of_expr (by rintro type (rfl | rfl) <;> rfl) hnodes hi
  obtain ⟨m', hm', hexpr⟩ := hi j rfl
  rw [← hnodes, hm] at hm'
  cases hm'
  obtain htype | htype := hjump
  all_goals
    rw [htype] at hexpr
    cases hexpr

theorem jumped_of_comesToJump (hf : Formed nodes) (hnodes : s.nodes = nodes) (h : ComesToJump fuel i s) :
    ∃ w s', eval fuel i s = .ok w s' ∧ s'.Jumped := by
  obtain ⟨k, j, t, m, hreach, hm, hjump, he⟩ := h
  refine hreach.backward (P := fun k i s => s.nodes = nodes → ∃ w s', eval k i s = .ok w s' ∧ s'.Jumped)
    ?_ ?_ hnodes
  · intro k c n s l u hn he' htype hv hreach hrest hnodes
    have hu := (visits_nodes hv).trans hnodes
    obtain ⟨w, u', hrun, hu'⟩ := hrest hu
    refine ⟨w, u', ?_, hu'⟩
    rw [eval_node hn he']
    unfold evalNode at hv ⊢
    obtain htype | htype := htype
    · simp only [htype] at hv ⊢
      exact blockLoop_halts hv hrun hu'.halted
    · simp only [htype] at hv ⊢
      obtain ⟨rfl, rfl⟩ | ⟨cond, hcond, he'', hbranch⟩ := visits_evalIf.mp hv
      · have hexpr := hf.heads n (hnodes ▸ List.mem_of_getElem? hn) (by rw [htype]; rfl)
        exact absurd ⟨_, _, t, m, hreach, hm, hjump, he⟩ (not_comesToJump_expr hnodes hexpr)
      · exact (evalIf_branch hcond he'' hbranch).trans hrun
  · intro _
    rw [eval_node hm he, evalNode]
    obtain htype | htype := hjump
    · rw [htype]
      exact ⟨_, _, rfl, he, .inl rfl⟩
    · rw [htype]
      exact ⟨_, _, rfl, he, .inr rfl⟩

/-- A call that strays leaves the flag to its caller. -/
theorem jumped_of_strays (hf : Formed nodes) (hr : Ready nodes t) (h : Strays k c t) :
    ∃ n v t', t.nodes[c]? = some n ∧ n.type = .call ∧ t.error = none ∧
    eval (k + 1) (some c) t = .ok v t' ∧ t'.Jumped := by
  obtain ⟨b, u, henters, hjump⟩ := h
  obtain ⟨n, hn, htype, he, hv, -⟩ := id henters
  have hu : u.nodes = nodes := (visits_nodes hv).trans hr.nodes_eq
  obtain ⟨w, u', hbody, heu', hflags⟩ := jumped_of_comesToJump hf hu hjump
  obtain ⟨n', f, args, s₁, hn', -, -, hfunc, hlen, hdepth, hargs, hbind, rfl⟩ :=
    (enters_iff hr.depth).mp henters
  rw [hn] at hn'
  cases hn'
  obtain ⟨t', hrun, he', -, hb, hc⟩ := Called.apply ⟨hfunc, hlen, hdepth, hargs, hbind, hbody⟩
  have hflags' : t'.breaking = true ∨ t'.continuing = true := by
    rw [hb, hc]
    exact hflags
  have hcall : evalNode (eval k) k n = evalCall (eval k) n := evalNode_call htype
  rw [← hcall, ← eval_node hn he] at hrun
  exact ⟨n, _, t', hn, htype, he, hrun, he'.trans heu', hflags'⟩

theorem callsKeepFlags_iff (hf : Formed nodes) (hr : Ready nodes s) :
    CallsKeepFlags fuel i s ↔ NoCallStrays fuel i s := by
  constructor
  · intro h k c t hreach hclean hstray
    have ht : t.error = none := by
      obtain ⟨b, u, ⟨n, -, -, he, -⟩, -⟩ := hstray
      exact he
    obtain ⟨n, v, t', hn, htype, he, hrun, he', hflags⟩ := jumped_of_strays hf (hreach.ready hr ht) hstray
    have hkept := h k c t n v t' hreach hn htype he hclean hrun he'
    rw [hkept.breaking, hkept.continuing] at hflags
    simp at hflags
  · intro h k c t n v t' hreach hn htype he hclean hrun he'
    have hready := hreach.ready hr he
    refine (settles_eval hf hready (fun k' d x hreach' => h k' d x (hreach.trans hreach')) he hclean v
      t' hrun he').1 ?_
    rintro d ⟨⟩
    exact ⟨n, hready.nodes_eq ▸ hn, by rw [htype]; rfl⟩

variable {m : GkState} {src : List UInt8} {s₁ s₂ : Run} {root : Nat}

/-- In every state of a run: all calls which an evaluation from there makes keep
the flags clear exactly if none of them comes to a break or continue outside of
the loops of its function. -/
theorem calls_keep_flags_iff (hl : gkLex src (begun m) = .ok () s₁) (hp : gkParse s₁ = .ok root s₂) :
    ∀ x ∈ (final (eval fuel (some root) s₂)).since s₂, ∀ fuel' i,
      CallsKeepFlags fuel' i x.start ↔ NoCallStrays fuel' i x.start :=
  fun _ hx _ _ => callsKeepFlags_iff (gkParse_formed hp) (ready_since hl hp hx)

/-- Without break and continue in the program no call strays. -/
theorem noCallStrays_of_no_jumps (hr : Ready nodes s) (hno : ∀ n ∈ nodes, ¬ n.type.isJump) :
    NoCallStrays fuel i s := by
  rintro k c t hreach - ⟨b, u, ⟨n, hn, htype, he, hv, -⟩, k', j, x, m, hx, hm, hjump, -⟩
  rw [hx.nodes_eq, visits_nodes hv, (hreach.ready hr he).nodes_eq] at hm
  exact hno m (List.mem_of_getElem? hm) hjump

def returnSource : List UInt8 :=
  ascii "def f(x):\n while True:\n  if x:\n   return x\n  x = 2\nprint(f(0), f(1))\n"

private theorem returnSource_runs : (parsed returnSource).any (fun (_, root, s₂) =>
    (s₂.nodes.all fun n => n.type ≠ .breakNode && n.type ≠ .continueNode) &&
      (final (eval 20 (some root) s₂)).output = ascii "2 1\n") = true := by
  decide +kernel

/-- A return in a loop leaves no flag behind its call. -/
theorem calls_keep_flags_iff_return : ∃ s₁ s₂ root, gkLex returnSource (begun (freshState [])) = .ok () s₁ ∧
    gkParse s₁ = .ok root s₂ ∧ (final (eval 20 (some root) s₂)).output = ascii "2 1\n" ∧
    ∀ x ∈ (final (eval 20 (some root) s₂)).since s₂, ∀ fuel' i, CallsKeepFlags fuel' i x.start := by
  obtain ⟨⟨s₁, root, s₂⟩, hsome, hruns⟩ := (Option.any_eq_true _ _).mp returnSource_runs
  obtain ⟨hl, hp⟩ := parsed_eq_some hsome
  simp only [Bool.and_eq_true, decide_eq_true_eq, List.all_eq_true] at hruns
  obtain ⟨hnodes, houtput⟩ := hruns
  refine ⟨s₁, s₂, root, hl, hp, houtput, fun x hx fuel' i => (calls_keep_flags_iff hl hp x hx fuel' i).mpr ?_⟩
  refine noCallStrays_of_no_jumps (ready_since hl hp hx) fun n hn hjump => ?_
  obtain ⟨hbreak, hcontinue⟩ := hnodes n hn
  exact hjump.elim hbreak hcontinue

/-- The break of `f` stands in no loop of its own. -/
def strayBreakSource : List UInt8 := ascii "def f():\n break\nwhile True:\n f()\n print(1)\n"

/-- The call leaves the flag of its break. -/
private def leavesBreaking (fuel : Nat) (x : GkState) (c : Nat) : Bool :=
  x.error = none && !x.returning && !x.breaking && !x.continuing && (x.nodes[c]?.any fun n => n.type = .call) &&
    match eval fuel (some c) x.start with
    | .ok _ s' => s'.error = none && s'.breaking
    | .error _ _ => false

private theorem strayBreakSource_runs : (parsed strayBreakSource).any (fun (_, root, s₂) =>
    ((final (eval 10 (some root) s₂)).since s₂).any fun x =>
    (List.range x.nodes.length).any (leavesBreaking 10 x)) = true := by
  decide +kernel

/-- The call of this program, made with no flag set, sets one. -/
theorem stray_break_crosses_call : ∃ s₁ s₂ root, gkLex strayBreakSource (begun (freshState [])) = .ok () s₁ ∧
    gkParse s₁ = .ok root s₂ ∧ ∃ x ∈ (final (eval 10 (some root) s₂)).since s₂, x.error = none ∧ x.start.Clean ∧
      ∃ c n v s', x.nodes[c]? = some n ∧ n.type = .call ∧ eval 10 (some c) x.start = .ok v s' ∧
      s'.error = none ∧ ¬ s'.Clean := by
  obtain ⟨⟨s₁, root, s₂⟩, hsome, hruns⟩ := (Option.any_eq_true _ _).mp strayBreakSource_runs
  obtain ⟨hl, hp⟩ := parsed_eq_some hsome
  obtain ⟨x, hx, hcalls⟩ := List.any_eq_true.mp hruns
  obtain ⟨c, -, hleaves⟩ := List.any_eq_true.mp hcalls
  simp only [leavesBreaking, Bool.and_eq_true, Bool.not_eq_true', decide_eq_true_eq] at hleaves
  obtain ⟨⟨⟨⟨⟨he, hr⟩, hb⟩, hc⟩, htype⟩, hrun⟩ := hleaves
  obtain ⟨n, hn, htype⟩ := (Option.any_eq_true _ _).mp htype
  refine ⟨s₁, s₂, root, hl, hp, x, hx, he, ⟨hr, hb, hc⟩, c, n, ?_⟩
  cases heval : eval 10 (some c) x.start with
  | error e s' =>
    rw [heval] at hrun
    cases hrun
  | ok v s' =>
    simp only [heval, Bool.and_eq_true, decide_eq_true_eq] at hrun
    refine ⟨v, s', hn, of_decide_eq_true htype, rfl, hrun.1, fun hclean => ?_⟩
    rw [hclean.breaking] at hrun
    cases hrun.2

end GeckoOS.Gk
