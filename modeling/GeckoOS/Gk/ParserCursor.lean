import GeckoOS.Gk.ParserWalk
import GeckoOS.Lib.Gauge
import Mathlib.Data.List.GetD

/-! The cursor of the parser only goes forward, never behind the token EOF, and
each recursion has a token behind it that was not read before: the parse ends. -/
namespace GeckoOS.Gk
open Lib
variable {α β : Type} {e k m fuel : Nat} {s s' s'' : Run}

/-- The tokens end at `e`, and the cursor is not behind that. -/
def Fenced (e : Nat) (s : Run) : Prop := s.tokPos ≤ e ∧ ∀ i, (s.tokens.getD i eofToken).type = .eof ↔ e ≤ i

/-- On the way from `s` to `s'` the cursor has gone forward. -/
structure CursorClimbs (s s' : Run) (new : List GkState) : Prop where
  past : s'.past = new ++ s.past
  sorted : (s'.toGkState :: new).Pairwise fun later earlier => earlier.tokPos ≤ later.tokPos
  le : ∀ x ∈ s'.toGkState :: new, s.tokPos ≤ x.tokPos

theorem CursorClimbs.of_past (hpast : s'.past = s.past) (hle : s.tokPos ≤ s'.tokPos) :
    CursorClimbs s s' [] where
  past := hpast
  sorted := List.pairwise_singleton _ _
  le x hx := by
    rw [List.mem_singleton.mp hx]
    exact hle

theorem CursorClimbs.trans {new new' : List GkState} (h : CursorClimbs s s' new)
    (h' : CursorClimbs s' s'' new') :
    CursorClimbs s s'' (new' ++ new) where
  past := by rw [h'.past, h.past, List.append_assoc]
  sorted := by
    have htail := List.Pairwise.of_cons h.sorted
    refine List.pairwise_append.mpr ⟨h'.sorted, htail, fun x hx y hy => ?_⟩
    exact (List.rel_of_pairwise_cons h.sorted hy).trans (h'.le x hx)
  le x hx := by
    obtain hx | hx : x ∈ s''.toGkState :: new' ∨ x ∈ new := List.mem_append.mp hx
    · exact (h.le _ (List.mem_cons_self ..)).trans (h'.le x hx)
    · exact h.le x (List.mem_cons_of_mem _ hx)

/-- The tokens up to EOF are what the parser uses up. -/
def cursorGauge (e : Nat) : Gauge Stop Run where
  Inv := Fenced e
  left s := e - s.tokPos
  Follows s s' := ∃ new, CursorClimbs s s' new
  Lack r := r = .outOfFuel ∨ r = .divideError
  refl _ := ⟨[], .of_past rfl (Nat.le_refl _)⟩
  trans _ _ _ := fun ⟨_, h⟩ ⟨_, h'⟩ => ⟨_, h.trans h'⟩

theorem Fenced.lt (h : Fenced e s) (hne : s.current.type ≠ .eof) : s.tokPos < e :=
  Nat.lt_of_not_le fun hle => hne ((h.2 s.tokPos).mpr hle)

theorem Fenced.forward (h : Fenced e s) (hk : s.tokPos + k ≤ e) : Fenced e (s.forward k) := ⟨hk, h.2⟩

/-! The steps. -/

/-- The cursor goes over `k` tokens. -/
theorem spends_forward {p : GkM α} {a : α} (hs : Fenced e s) (hk : s.tokPos + k ≤ e)
    (hp : p s = .ok a (s.forward k)) :
    (cursorGauge e).Spends k m s (p s) := by
  rw [hp]
  refine ⟨hs.forward hk, ⟨[], .of_past rfl (Nat.le_add_right _ _)⟩, fun b s' h => ?_, fun r s' _ h => ?_⟩
  · cases h
    change e - (s.tokPos + k) + k ≤ e - s.tokPos
    omega
  · cases h

theorem costs_peek : (cursorGauge e).Costs 0 m peek := fun _ hs => spends_forward hs hs.1 rfl

theorem costs_check (t : TokenType) : (cursorGauge e).Costs 0 m (check t) :=
  fun _ hs => spends_forward hs hs.1 rfl

theorem spends_advance (hs : Fenced e s) (hne : s.current.type ≠ .eof) :
    (cursorGauge e).Spends 1 m s (advance s) :=
  spends_forward hs (hs.lt hne) (advance_apply hne)

theorem costs_advance : (cursorGauge e).Costs 0 m advance := by
  intro s hs
  by_cases h : s.current.type = .eof
  · refine spends_forward (k := 0) (a := ()) hs hs.1 ?_
    rw [advance, bind_ok (peek_apply s), if_neg (not_not.mpr h)]
    rfl
  · exact (spends_advance hs h).weaken (Nat.zero_le _) (Nat.le_refl _)

theorem costs_matchToken (t : TokenType) : (cursorGauge e).Costs 0 m (matchToken t) :=
  (costs_check t).bind fun _ => .ite (costs_advance.bind fun _ => .pure _) (.pure _)

/-- The newlines in front of the cursor are not behind EOF. -/
theorem Fenced.skipLines_le (hs : Fenced e s) :
    s.tokPos + (s.ahead.takeWhile (·.type == .newline)).length ≤ e := by
  by_contra hlt
  have hle := hs.1
  have hi : e - s.tokPos < (s.ahead.takeWhile (·.type == .newline)).length := by omega
  have hlen := hi.trans_le (List.takeWhile_prefix _).length_le
  have hnewline := List.mem_takeWhile_imp (List.getElem_mem hi)
  rw [(List.takeWhile_prefix _).getElem hi] at hnewline
  have hcurrent : s.ahead[e - s.tokPos]? = s.tokens[e]? := by
    rw [Run.ahead, List.getElem?_drop, Nat.add_sub_cancel' hle]
  have heof := (hs.2 e).mpr (Nat.le_refl e)
  rw [List.getD_eq_getElem?_getD, ← hcurrent, List.getElem?_eq_getElem hlen, Option.getD_some] at heof
  rw [heof] at hnewline
  cases hnewline

theorem costs_skipNewlines : (cursorGauge e).Costs 0 m skipNewlines := fun s hs =>
  (spends_forward hs hs.skipLines_le (skipNewlines_apply s)).weaken (Nat.zero_le _) (Nat.le_refl _)

theorem costs_fail (r : GkError) : (cursorGauge e).Costs k m (fail r : GkM α) := by
  refine fun s hs => ⟨hs, ⟨[], .of_past rfl (Nat.le_refl _)⟩, fun a s' h => ?_, fun r s' _ h => ?_⟩
  · cases h
  · cases h
    rintro (hr | hr) <;> cases hr

/-- Behind a failure nothing is done. -/
theorem costs_refuse (r : GkError) (f : α → GkM β) : (cursorGauge e).Costs k m (fail r >>= f) := by
  intro s hs
  have hstop : (fail r : GkM α) s = .error .failed { s with error := some r } := rfl
  rw [bind_error hstop]
  exact costs_fail r s hs

theorem costs_expect {t : TokenType} (ht : t ≠ .eof) (r : GkError) :
    (cursorGauge e).Costs 1 m (expect t r) := by
  intro s hs
  by_cases h : s.current.type = t
  · exact spends_forward hs (hs.lt (h ▸ ht)) (expect_hit h ht r)
  · rw [expect, bind_ok (matchToken_miss h)]
    exact costs_fail r s hs

/-- A change of the nodes. -/
theorem costs_update (f : List Node → List Node) :
    (cursorGauge e).Costs 0 m (update fun s => { s with nodes := f s.nodes }) := by
  refine fun s hs => ⟨hs, ⟨[s.toGkState], rfl, ?_, ?_⟩, fun a s' h => ?_, fun r s' _ h => ?_⟩
  · exact List.pairwise_pair.mpr (Nat.le_refl _)
  · intro x hx
    simp only [List.mem_cons, List.not_mem_nil, or_false] at hx
    obtain rfl | rfl := hx
    · exact Nat.le_refl _
    · exact Nat.le_refl _
  · cases h
    exact Nat.le_refl _
  · cases h

theorem costs_get : (cursorGauge e).Costs 0 m (get : GkM Run) := fun _ hs => spends_forward hs hs.1 rfl

theorem costs_newNode (type : NodeType) (line : Nat) : (cursorGauge e).Costs 0 m (newNode type line) :=
  costs_get.bind fun _ =>
    .ite (costs_refuse _ _) ((costs_update fun nodes => nodes ++ [_]).bind fun _ => .pure _)

theorem costs_setNode (n : Nat) (f : Node → Node) : (cursorGauge e).Costs 0 m (setNode n f) :=
  costs_update fun nodes => nodes.modify n f

theorem costs_addChild (n c : Nat) : (cursorGauge e).Costs 0 m (addChild n c) :=
  costs_get.bind fun _ => .ite (costs_setNode _ _) (.throw (by rintro (h | h) <;> cases h))

theorem costs_addChecked (n c : Nat) (r : GkError) : (cursorGauge e).Costs 0 m (addChecked n c r) :=
  costs_get.bind fun _ => .ite (costs_refuse _ _) (costs_addChild n c)

theorem costs_leaf (type : NodeType) (line : Nat) (v : Int) (str : List UInt8) :
    (cursorGauge e).Costs 0 m (leaf type line v str) :=
  (costs_newNode type line).bind fun _ => (costs_setNode _ _).bind fun _ => .pure _

theorem costs_operatorNode (type : NodeType) (t : Token) (kids : List Nat) :
    (cursorGauge e).Costs 0 m (operatorNode type t kids) :=
  (costs_newNode type t.line).bind fun _ => (costs_setNode _ _).bind fun _ => .pure _

variable {expr stmt : GkM Nat}

/-- A token that is not EOF, and what comes behind it. -/
theorem spends_step {f : Unit → GkM α} (hs : Fenced e s) (hne : s.current.type ≠ .eof)
    (hf : ∀ u, (cursorGauge e).Costs 0 (m - 1) (f u)) : (cursorGauge e).Spends 1 m s ((advance >>= f) s) :=
  (spends_advance hs hne).bind fun u s' _ hs' => hf u s' hs'

/-- The first token of a statement, and the rest of it. -/
theorem spends_statement {f : Token → Unit → GkM α} (hs : Fenced e s) (hne : s.current.type ≠ .eof)
    (hf : ∀ t u, (cursorGauge e).Costs 0 (m - 1) (f t u)) :
    (cursorGauge e).Spends 1 m s ((peek >>= fun t => advance >>= f t) s) := by
  rw [bind_ok (peek_apply s)]
  exact spends_step hs hne (hf s.current)

/-! The expressions. -/

/-- Each argument takes a token, so that the loop comes to its end. -/
theorem costs_argLoop (he : (cursorGauge e).Costs 1 m expr) (n : Nat) (hm : m ≤ fuel) :
    (cursorGauge e).Costs 0 m (argLoop expr n fuel) := by
  induction fuel generalizing m with
  | zero =>
    rw [Nat.le_zero.mp hm]
    exact .lack _
  | succ fuel ih =>
    have hrest := ih he.pred (Nat.sub_le_of_le_add hm)
    refine (costs_check _).bind fun _ => (costs_check _).bind fun _ => .ite ?_ (.pure _)
    refine (he.spend fun _ => ?_).forget
    exact (costs_addChecked _ _ _).bind fun _ => (costs_matchToken _).bind fun _ => .ite hrest (.pure _)

theorem costs_parsePrimary (he : (cursorGauge e).Costs 1 (m - 1) expr) (hm : m - 1 ≤ fuel) :
    (cursorGauge e).Costs 1 m (parsePrimary fuel expr) := by
  intro s hs
  have hleaf : s.current.type ≠ .eof → ∀ type v str,
      (cursorGauge e).Spends 1 m s ((do advance; leaf type s.current.line v str) s) := fun hne type v str =>
    spends_step hs hne fun _ => costs_leaf type s.current.line v str
  rw [parsePrimary, bind_ok (peek_apply s)]
  cases ht : s.current.type
  case int => exact hleaf (by rw [ht]; decide) _ _ _
  case str => exact hleaf (by rw [ht]; decide) _ _ _
  case kwTrue => exact hleaf (by rw [ht]; decide) _ _ _
  case kwFalse => exact hleaf (by rw [ht]; decide) _ _ _
  case ident =>
    refine spends_step hs (by rw [ht]; decide) fun _ => (costs_check _).bind fun _ =>
      .ite ?_ (costs_leaf _ _ _ _)
    exact costs_advance.bind fun _ => (costs_leaf _ _ _ _).bind fun n => (costs_argLoop he n hm).bind fun _ =>
      (costs_expect (by decide) _).forget.bind fun _ => .pure _
  case lparen =>
    refine spends_step hs (by rw [ht]; decide) fun _ => ?_
    exact he.forget.bind fun _ => (costs_expect (by decide) _).forget.bind fun _ => .pure _
  all_goals exact costs_fail _ s hs

theorem costs_parseUnary {primary : GkM Nat} (hp : (cursorGauge e).Costs 1 m primary) (hm : m ≤ fuel) :
    (cursorGauge e).Costs 1 m (parseUnary primary fuel) := by
  induction fuel generalizing m with
  | zero =>
    rw [Nat.le_zero.mp hm]
    exact .lack _
  | succ fuel ih =>
    have hrest := ih hp.pred (Nat.sub_le_of_le_add hm)
    intro s hs
    rw [parseUnary, bind_ok (peek_apply s)]
    split
    · next hop =>
      have hne : s.current.type ≠ .eof := by
        obtain hop | hop := hop
        · rw [hop]
          decide
        · rw [hop]
          decide
      exact spends_step hs hne fun _ => hrest.forget.bind fun _ => costs_operatorNode _ _ _
    · exact hp s hs

/-- Each operand takes a token. -/
theorem costs_binaryLoop (ops : List TokenType) {operand : GkM Nat}
    (hp : (cursorGauge e).Costs 1 m operand) (left : Nat)
    (hm : m ≤ fuel) : (cursorGauge e).Costs 0 m (binaryLoop ops operand fuel left) := by
  induction fuel generalizing m left with
  | zero =>
    rw [Nat.le_zero.mp hm]
    exact .lack _
  | succ fuel ih =>
    have hrest := fun n => ih hp.pred n (Nat.sub_le_of_le_add hm)
    refine costs_peek.bind fun t => .ite ?_ (.pure _)
    refine costs_advance.bind fun _ => (hp.spend fun _ => ?_).forget
    exact (costs_operatorNode _ _ _).bind hrest

theorem costs_parseBinary (ops : List TokenType) {operand : GkM Nat} (hp : (cursorGauge e).Costs 1 m operand)
    (hm : m ≤ fuel) : (cursorGauge e).Costs 1 m (parseBinary ops fuel operand) :=
  hp.spend fun left => costs_binaryLoop ops hp.pred left ((Nat.sub_le m 1).trans hm)

theorem costs_parseExpr (fuel : Nat) : (cursorGauge e).Costs 1 (fuel - 1) (parseExpr fuel) := by
  induction fuel with
  | zero => exact .lack _
  | succ fuel ih =>
    -- the levels take the same fuel; only the parentheses of a primary come back here
    have hunary := costs_parseUnary (costs_parsePrimary ih (Nat.sub_le fuel 1)) (Nat.le_refl fuel)
    have hmul := costs_parseBinary mulOps hunary (Nat.le_refl fuel)
    have hadd := costs_parseBinary addOps hmul (Nat.le_refl fuel)
    have hcmp := costs_parseBinary cmpOps hadd (Nat.le_refl fuel)
    have hand := costs_parseBinary [.and] hcmp (Nat.le_refl fuel)
    exact costs_parseBinary [.or] hand (Nat.le_refl fuel)

/-! The statements. -/

/-- Each statement takes a token, whatever the loop stops at. -/
theorem costs_stmtLoop (hs : (cursorGauge e).Costs 1 m stmt) (ends : List TokenType) (r : GkError) (n : Nat)
    (hm : m ≤ fuel) : (cursorGauge e).Costs 0 m (stmtLoop stmt ends r n fuel) := by
  induction fuel generalizing m with
  | zero =>
    rw [Nat.le_zero.mp hm]
    exact .lack _
  | succ fuel ih =>
    have hrest := ih hs.pred (Nat.sub_le_of_le_add hm)
    refine costs_peek.bind fun t => .ite (hs.spend fun _ => ?_).forget (.pure _)
    exact (costs_addChecked _ _ _).bind fun _ => costs_skipNewlines.bind fun _ => hrest

theorem costs_parseBlock (hs : (cursorGauge e).Costs 1 (m - 1) stmt) (hm : m - 1 ≤ fuel) :
    (cursorGauge e).Costs 1 m (parseBlock fuel stmt) :=
  costs_peek.bind fun _ => (costs_expect (by decide) _).spend fun _ => (costs_newNode _ _).bind fun _ =>
    costs_skipNewlines.bind fun _ => (costs_stmtLoop hs _ _ _ hm).bind fun _ =>
      (costs_matchToken _).bind fun _ => .pure _

/-- The block behind the first tokens of a statement. -/
theorem costs_innerBlock (hs : (cursorGauge e).Costs 1 m stmt) (hm : m ≤ fuel) :
    (cursorGauge e).Costs 0 m (parseBlock fuel stmt) :=
  (costs_parseBlock hs.pred ((Nat.sub_le m 1).trans hm)).forget

theorem costs_parseHeader (he : (cursorGauge e).Costs 1 m expr) (hs : (cursorGauge e).Costs 1 m stmt)
    (hm : m ≤ fuel)
    (r : GkError) : (cursorGauge e).Costs 0 m (parseHeader fuel expr stmt r) :=
  he.forget.bind fun _ => (costs_expect (by decide) _).forget.bind fun _ => (costs_matchToken _).bind fun _ =>
    (costs_innerBlock hs hm).bind fun _ => .pure _

/-- Each parameter takes its name. -/
theorem costs_paramLoop (n : Nat) (hm : m ≤ fuel) : (cursorGauge e).Costs 0 m (paramLoop n fuel) := by
  induction fuel generalizing m with
  | zero =>
    rw [Nat.le_zero.mp hm]
    exact .lack _
  | succ fuel ih =>
    have hrest := ih (Nat.sub_le_of_le_add hm)
    refine (costs_check _).bind fun _ => (costs_check _).bind fun _ => .ite (fun s hs => ?_) (.pure _)
    rw [bind_ok (peek_apply s)]
    by_cases hident : s.current.type = .ident
    · rw [if_neg (not_not.mpr hident)]
      refine (spends_step hs (by rw [hident]; decide) fun _ => ?_).weaken (Nat.zero_le 1) (Nat.le_refl m)
      exact (costs_leaf _ _ _ _).bind fun _ => (costs_addChild _ _).bind fun _ =>
        (costs_matchToken _).bind fun _ =>
        .ite hrest (.pure _)
    · rw [if_pos hident]
      exact costs_refuse _ _ s hs

section statements
variable (hs : Fenced e s) (hne : s.current.type ≠ .eof)
include hs hne

theorem spends_parseReturn (he : (cursorGauge e).Costs 1 (m - 1) expr) :
    (cursorGauge e).Spends 1 m s (parseReturn expr s) := by
  have hend : ∀ n, (cursorGauge e).Costs 0 (m - 1)
    (do let _ ← matchToken .newline; return n : GkM Nat) := fun n =>
    (costs_matchToken _).bind fun _ => .pure n
  refine spends_statement hs hne fun t _ => (costs_newNode _ _).bind fun n => (costs_check _).bind fun _ =>
    (costs_check _).bind fun _ => .ite ?_ (hend n)
  exact he.forget.bind fun _ => (costs_setNode _ _).bind fun _ => hend n

theorem spends_parseJump (type : NodeType) : (cursorGauge e).Spends 1 m s (parseJump type s) :=
  spends_statement hs hne fun _ _ => (costs_matchToken _).bind fun _ => costs_newNode _ _

theorem spends_parseDef (hst : (cursorGauge e).Costs 1 (m - 1) stmt) (hm : m - 1 ≤ fuel) :
    (cursorGauge e).Spends 1 m s (parseDef fuel stmt s) := by
  refine spends_statement hs hne fun t _ => costs_peek.bind fun name => .ite (costs_refuse _ _) ?_
  refine costs_advance.bind fun _ => (costs_leaf _ _ _ _).bind fun n =>
    (costs_expect (by decide) _).forget.bind fun _ => ?_
  refine (costs_paramLoop n hm).bind fun _ => (costs_expect (by decide) _).forget.bind fun _ => ?_
  exact (costs_expect (by decide) _).forget.bind fun _ => (costs_matchToken _).bind fun _ =>
    (costs_innerBlock hst hm).bind fun _ => (costs_addChild _ _).bind fun _ => .pure _

theorem spends_parseIf (he : (cursorGauge e).Costs 1 (m - 1) expr) (hst : (cursorGauge e).Costs 1 (m - 1) stmt)
    (hm : m - 1 ≤ fuel) : (cursorGauge e).Spends 1 m s (parseIf fuel expr stmt s) := by
  refine spends_statement hs hne fun t _ => (costs_newNode _ _).bind fun n =>
    (costs_parseHeader he hst hm _).bind fun _ =>
    (costs_setNode _ _).bind fun _ => costs_skipNewlines.bind fun _ => (costs_check _).bind fun _ => .ite ?_ ?_
  · exact hst.forget.bind fun _ => (costs_setNode _ _).bind fun _ => .pure _
  · refine (costs_check _).bind fun _ => .ite ?_ (.pure _)
    exact costs_advance.bind fun _ => (costs_expect (by decide) _).forget.bind fun _ =>
      (costs_matchToken _).bind fun _ =>
      (costs_innerBlock hst hm).bind fun _ => (costs_setNode _ _).bind fun _ => .pure _

theorem spends_parseWhile (he : (cursorGauge e).Costs 1 (m - 1) expr)
    (hst : (cursorGauge e).Costs 1 (m - 1) stmt)
    (hm : m - 1 ≤ fuel) : (cursorGauge e).Spends 1 m s (parseWhile fuel expr stmt s) :=
  spends_statement hs hne fun _ _ => (costs_newNode _ _).bind fun _ =>
    (costs_parseHeader he hst hm _).bind fun _ =>
    (costs_setNode _ _).bind fun _ => .pure _

theorem spends_parseFor (he : (cursorGauge e).Costs 1 (m - 1) expr) (hst : (cursorGauge e).Costs 1 (m - 1) stmt)
    (hm : m - 1 ≤ fuel) : (cursorGauge e).Spends 1 m s (parseFor fuel expr stmt s) := by
  refine spends_statement hs hne fun t _ => costs_peek.bind fun var => .ite (costs_refuse _ _) ?_
  exact costs_advance.bind fun _ => (costs_expect (by decide) _).forget.bind fun _ =>
    (costs_leaf _ _ _ _).bind fun _ =>
    (costs_parseHeader he hst hm _).bind fun _ => (costs_setNode _ _).bind fun _ => .pure _

theorem spends_parseAssign (he : (cursorGauge e).Costs 1 (m - 1) expr) :
    (cursorGauge e).Spends 1 m s (parseAssign expr s) :=
  spends_statement hs hne fun _ _ => costs_advance.bind fun _ => (costs_leaf _ _ _ _).bind fun _ =>
    he.forget.bind fun _ =>
    (costs_setNode _ _).bind fun _ => (costs_matchToken _).bind fun _ => .pure _

end statements

theorem costs_parseExprStmt (he : (cursorGauge e).Costs 1 m expr) :
    (cursorGauge e).Costs 1 m (parseExprStmt expr) :=
  he.spend fun _ => (costs_matchToken _).bind fun _ => .pure _

theorem costs_parseStmt (fuel : Nat) : (cursorGauge e).Costs 1 (fuel - 2) (parseStmt fuel) := by
  induction fuel with
  | zero => exact .lack _
  | succ fuel ih =>
    intro s hs
    -- an expression alone takes its fuel at once, the others behind their first token
    have hexpr : (cursorGauge e).Costs 1 (fuel + 1 - 2) (parseExpr fuel) := costs_parseExpr fuel
    have he := hexpr.pred
    have hst : (cursorGauge e).Costs 1 (fuel + 1 - 2 - 1) (parseStmt fuel) := ih
    have hm : fuel + 1 - 2 - 1 ≤ fuel := by omega
    rw [parseStmt, bind_ok (peek_apply s)]
    cases ht : s.current.type
    case kwReturn => exact spends_parseReturn hs (by rw [ht]; decide) he
    case kwBreak => exact spends_parseJump hs (by rw [ht]; decide) _
    case kwContinue => exact spends_parseJump hs (by rw [ht]; decide) _
    case kwDef => exact spends_parseDef hs (by rw [ht]; decide) hst hm
    case kwIf => exact spends_parseIf hs (by rw [ht]; decide) he hst hm
    case kwElif => exact spends_parseIf hs (by rw [ht]; decide) he hst hm
    case kwWhile => exact spends_parseWhile hs (by rw [ht]; decide) he hst hm
    case kwFor => exact spends_parseFor hs (by rw [ht]; decide) he hst hm
    case ident =>
      obtain ⟨b, hb, -⟩ := assignFollows_apply s
      dsimp only
      rw [bind_ok hb]
      split
      · exact spends_parseAssign hs (by rw [ht]; decide) he
      · exact costs_parseExprStmt hexpr s hs
    all_goals exact costs_parseExprStmt hexpr s hs

/-! The parse. -/

/-- The program leaves the cursor between where it was and `e`. -/
def Forwards (e : Nat) (p : GkM α) (s : Run) : Prop :=
  s.tokPos ≤ (final (p s)).tokPos ∧ (final (p s)).tokPos ≤ e

/-- A result of the program has taken a token at least. -/
def Consumes (p : GkM α) (s : Run) : Prop := ∀ a s', p s = .ok a s' → s.tokPos < s'.tokPos

theorem forwards_of_costs {p : GkM α} (hp : (cursorGauge e).Costs k m p) (hs : Fenced e s) :
    Forwards e p s := by
  obtain ⟨⟨hle, -⟩, ⟨new, hclimbs⟩, -, -⟩ := hp s hs
  exact ⟨hclimbs.le _ (List.mem_cons_self ..), hle⟩

theorem consumes_of_costs {p : GkM α} (hp : (cursorGauge e).Costs 1 m p) (hs : Fenced e s) : Consumes p s := by
  intro a s' h
  have hleft : e - s'.tokPos + 1 ≤ e - s.tokPos := (hp s hs).ok a s' h
  omega

theorem fenced_append {body : List Token} {last : Token} (htokens : s.tokens = body ++ [last])
    (hbody : ∀ t ∈ body, t.type ≠ .eof) (hlast : last.type = .eof) (hle : s.tokPos ≤ body.length) :
    Fenced body.length s := by
  refine ⟨hle, fun i => ?_⟩
  rw [htokens]
  obtain hi | rfl | hi := Nat.lt_trichotomy i body.length
  · rw [List.getD_append _ _ _ _ hi, List.getD_eq_getElem _ _ hi]
    simp only [hbody _ (List.getElem_mem hi), false_iff, Nat.not_le]
    exact hi
  · simp [hlast]
  · rw [List.getD_eq_default _ _ (by simp; omega)]
    simp only [eofToken, true_iff]
    exact hi.le

/-- How the parse of `s` goes whose tokens end at `e`. -/
structure ParsesInside (e : Nat) (s : Run) : Prop where
  /-- With the root, with a failure that leaves a message or, for a definition of more than 63
  parameters alone, where it would store behind `child`. -/
  ends : (∃ root s', gkParse s = .ok root s') ∨
    (∃ s' err, gkParse s = .error .failed s' ∧ s'.error = some err ∧ err.text ≠ []) ∨
    narrowDefs s.tokenTypes = false ∧ ∃ s', gkParse s = .error .overrun s'
  /-- The states of the parse, which are in front of the older ones. -/
  cursor : ∃ parsed, (final (gkParse s)).moments = parsed ++ s.moments ∧
    (parsed.Pairwise fun later earlier => earlier.tokPos ≤ later.tokPos) ∧ ∀ m ∈ parsed, m.tokPos ≤ e
  /-- The two functions that move the cursor. -/
  moves : ∀ t : Run, t.tokens = s.tokens → t.tokPos ≤ e → Forwards e advance t ∧ Forwards e skipNewlines t
  consumes : ∀ t : Run, t.tokens = s.tokens → t.tokPos ≤ e → ∀ fuel,
    ∀ p ∈ [parseStmt fuel, parseBlock fuel (parseStmt fuel), parseExpr fuel], Forwards e p t ∧ Consumes p t

/-- On tokens whose only EOF is the last the parse ends, the cursor goes forward and never
behind EOF, and each statement, block and expression takes a token. -/
theorem gkParse_inside {s : Run} {body : List Token} {last : Token} (htokens : s.tokens = body ++ [last])
    (hbody : ∀ t ∈ body, t.type ≠ .eof) (hlast : last.type = .eof) : ParsesInside body.length s := by
  have hcleared : Fenced body.length s.cleared := fenced_append htokens hbody hlast (Nat.zero_le _)
  have hlen : s.tokens.length = body.length + 1 := by rw [htokens, List.length_append, List.length_singleton]
  have hparse : (cursorGauge body.length).Spends 0 (body.length + 1) s.cleared (gkParse s) := by
    rw [gkParse_eq, hlen]
    have hstmt := costs_parseStmt (e := body.length) (body.length + 1 + 2)
    exact ((costs_newNode _ _).bind fun root => costs_skipNewlines.bind fun _ =>
      (costs_stmtLoop hstmt _ _ root (Nat.le_add_right _ 2)).bind fun _ => .pure _) _ hcleared
  have hwalked := walked_gkParse s
  have hfenced : ∀ t : Run, t.tokens = s.tokens → t.tokPos ≤ body.length → Fenced body.length t :=
    fun t ht hle =>
    fenced_append (ht.trans htokens) hbody hlast hle
  refine ⟨?_, ?_, fun t ht hle => ?_, fun t ht hle fuel p hp => ?_⟩
  · cases h : gkParse s with
    | ok root s' => exact .inl ⟨root, s', rfl⟩
    | error r s' =>
      have henough : ¬ (r = .outOfFuel ∨ r = .divideError) := hparse.enough r s' (Nat.lt_succ_self _) h
      cases r with
      | failed =>
        obtain ⟨err, herr⟩ := Option.ne_none_iff_exists'.mp (hwalked.failed s' h)
        exact .inr (.inl ⟨s', err, rfl, herr, err.text_ne_nil⟩)
      | overrun =>
        refine .inr (.inr ⟨?_, s', rfl⟩)
        exact Bool.eq_false_iff.mpr fun hn => not_meetsWideDef hn (hwalked.overrun s' h)
      | divideError => exact absurd (.inr rfl) henough
      | outOfFuel => exact absurd (.inl rfl) henough
  · obtain ⟨new, hclimbs⟩ := hparse.follows
    refine ⟨(final (gkParse s)).toGkState :: new, congrArg _ hclimbs.past, hclimbs.sorted, fun m hm => ?_⟩
    have hfinal : (final (gkParse s)).tokPos ≤ body.length := hparse.inv.1
    obtain rfl | hm := List.mem_cons.mp hm
    · exact hfinal
    · exact (List.rel_of_pairwise_cons hclimbs.sorted hm).trans hfinal
  · have hadvance := costs_advance (e := body.length) (m := 0)
    have hskip := costs_skipNewlines (e := body.length) (m := 0)
    exact ⟨forwards_of_costs hadvance (hfenced t ht hle), forwards_of_costs hskip (hfenced t ht hle)⟩
  · have hcosts : ∃ m, (cursorGauge body.length).Costs 1 m p := by
      simp only [List.mem_cons, List.not_mem_nil, or_false] at hp
      obtain rfl | rfl | rfl := hp
      · exact ⟨_, costs_parseStmt fuel⟩
      · have hstmt := (costs_parseStmt (e := body.length) fuel).weaken (Nat.le_refl 1) (Nat.zero_le _)
        exact ⟨0, costs_parseBlock hstmt (Nat.zero_le fuel)⟩
      · exact ⟨_, costs_parseExpr fuel⟩
    obtain ⟨m, hcosts⟩ := hcosts
    exact ⟨forwards_of_costs hcosts (hfenced t ht hle), consumes_of_costs hcosts (hfenced t ht hle)⟩

theorem gkParse_inside_identity : ParsesInside 12 (lexedState [] identityTokens) := by
  have htokens : (lexedState [] identityTokens).tokens = identityTokens.dropLast ++ [⟨.eof, 0, [], 3⟩] := rfl
  exact gkParse_inside htokens (by decide) rfl

end GeckoOS.Gk
