import GeckoOS.Gk.ParserSteps

/-! What the parser has done when it comes to a result: for each function the
calls that it has made, in their order. -/
namespace GeckoOS.Gk
open Lib
variable {s s' : Run} {t : TokenType} {n fuel : Nat} {expr stmt : GkM Nat}

/-- The cursor behind the next token if that is a `t`. -/
def Run.skip (s : Run) (t : TokenType) : Run := if s.current.type = t then s.forward 1 else s

/-- The cursor behind the newlines. -/
def Run.skipLines (s : Run) : Run := s.forward (s.ahead.takeWhile (·.type == .newline)).length

theorem skipNewlines_apply (s : Run) : skipNewlines s = .ok () s.skipLines := rfl

theorem matchToken_apply (ht : t ≠ .eof) (s : Run) : matchToken t s = .ok (s.current.type == t) (s.skip t) := by
  by_cases h : s.current.type = t
  · rw [matchToken_hit h ht, Run.skip, if_pos h, beq_iff_eq.mpr h]
  · rw [matchToken_miss h, Run.skip, if_neg h, beq_eq_false_iff_ne.mpr h]

theorem advance_ok {u : Unit} (hne : s.current.type ≠ .eof) (h : advance s = .ok u s') : s' = s.forward 1 := by
  rw [advance_apply hne] at h
  exact (EStateM.Result.ok.inj h).2.symm

theorem matchToken_ok {b : Bool} (ht : t ≠ .eof) (h : matchToken t s = .ok b s') : s' = s.skip t := by
  rw [matchToken_apply ht] at h
  exact (EStateM.Result.ok.inj h).2.symm

theorem expect_ok {e : GkError} (ht : t ≠ .eof) (h : expect t e s = .ok () s') :
    s.current.type = t ∧ s' = s.forward 1 := by
  by_cases hc : s.current.type = t
  · rw [expect_hit hc ht] at h
    exact ⟨hc, (EStateM.Result.ok.inj h).2.symm⟩
  · rw [expect_miss hc] at h
    cases h

theorem newNode_ok {type : NodeType} {line : Nat} (h : newNode type line s = .ok n s') :
    n = s.nodes.length ∧ Grows 0 [⟨type, line, 0, [], .int, []⟩] s s' := by
  obtain hroom | hfull := Nat.lt_or_ge s.nodes.length maxNodes
  · obtain ⟨s₁, h₁, hg⟩ := newNode_room type line hroom
    rw [h₁] at h
    cases h
    exact ⟨rfl, hg⟩
  · rw [newNode_full type line hfull] at h
    cases h

theorem leaf_ok {type : NodeType} {line : Nat} {v : Int} {str : List UInt8}
    (h : leaf type line v str s = .ok n s') :
    n = s.nodes.length ∧ Grows 0 [⟨type, line, v, str, .int, []⟩] s s' := by
  rw [leaf] at h
  obtain ⟨n₁, s₁, h₁, h⟩ := bind_eq_ok h
  obtain ⟨rfl, hg₁⟩ := newNode_ok h₁
  obtain ⟨s₂, h₂, hg₂⟩ := setNode_grown hg₁
  rw [bind_ok h₂] at h
  cases h
  exact ⟨rfl, hg₂⟩

theorem operatorNode_ok {type : NodeType} {tok : Token} {kids : List Nat}
    (h : operatorNode type tok kids s = .ok n s') :
    n = s.nodes.length ∧ Grows 0 [⟨type, tok.line, 0, [], tok.type, kids⟩] s s' := by
  rw [operatorNode] at h
  obtain ⟨n₁, s₁, h₁, h⟩ := bind_eq_ok h
  obtain ⟨rfl, hg₁⟩ := newNode_ok h₁
  obtain ⟨s₂, h₂, hg₂⟩ := setNode_grown hg₁
  rw [bind_ok h₂] at h
  cases h
  exact ⟨rfl, hg₂⟩

/-- The tokens that are an expression on their own. -/
def atoms : List TokenType := [.int, .str, .kwTrue, .kwFalse, .ident]

/-- The expression that an atom stands for. -/
def Token.atom (t : Token) : Expr :=
  match t.type with
  | .int => .int t.intVal
  | .str => .str t.strVal
  | .kwTrue => .bool true
  | .kwFalse => .bool false
  | _ => .var t.strVal

/-- The three forms of a primary expression. -/
theorem parsePrimary_ok (h : parsePrimary fuel expr s = .ok n s') :
    (s.current.type ∈ atoms ∧ (s.current.type = .ident → (s.forward 1).current.type ≠ .lparen) ∧
      n = s.nodes.length ∧ ∃ node : Node, Grows 1 [node] s s' ∧ node.children = [] ∧
        s.current.atom.toTree = .node node.label []) ∨
    (s.current.type = .ident ∧ (s.forward 1).current.type = .lparen ∧ ∃ s₁ s₂,
      leaf (callType s.current.strVal) s.current.line 0 s.current.strVal (s.forward 2) = .ok n s₁ ∧
      argLoop expr n fuel s₁ = .ok () s₂ ∧ s₂.current.type = .rparen ∧ s' = s₂.forward 1) ∨
    (s.current.type = .lparen ∧ ∃ s₁, expr (s.forward 1) = .ok n s₁ ∧ s₁.current.type = .rparen ∧
      s' = s₁.forward 1) := by
  have hleaf : ∀ {type : NodeType} {v : Int} {str : List UInt8}, s.current.type ≠ .eof →
      (do advance; leaf type s.current.line v str : GkM Nat) s = .ok n s' →
      n = s.nodes.length ∧ Grows 1 [⟨type, s.current.line, v, str, .int, []⟩] s s' := by
    intro type v str hne hrun
    rw [bind_ok (advance_apply hne)] at hrun
    obtain ⟨rfl, hg⟩ := leaf_ok hrun
    exact ⟨rfl, (Grows.forward s 1).trans hg⟩
  rw [parsePrimary, bind_ok (peek_apply s)] at h
  cases ht : s.current.type <;> simp only [ht] at h
  case int =>
    obtain ⟨hn, hg⟩ := hleaf (by rw [ht]; decide) h
    exact .inl ⟨by decide, nofun, hn, _, hg, rfl, by rw [Token.atom, ht]; rfl⟩
  case str =>
    obtain ⟨hn, hg⟩ := hleaf (by rw [ht]; decide) h
    exact .inl ⟨by decide, nofun, hn, _, hg, rfl, by rw [Token.atom, ht]; rfl⟩
  case kwTrue =>
    obtain ⟨hn, hg⟩ := hleaf (by rw [ht]; decide) h
    exact .inl ⟨by decide, nofun, hn, _, hg, rfl, by rw [Token.atom, ht]; rfl⟩
  case kwFalse =>
    obtain ⟨hn, hg⟩ := hleaf (by rw [ht]; decide) h
    exact .inl ⟨by decide, nofun, hn, _, hg, rfl, by rw [Token.atom, ht]; rfl⟩
  case ident =>
    have hadv : advance s = .ok () (s.forward 1) := advance_apply (by rw [ht]; decide)
    rw [bind_ok hadv, bind_ok (check_apply _ _)] at h
    split at h
    · next hp =>
      have hp := beq_iff_eq.mp hp
      rw [bind_ok (advance_apply (by rw [hp]; decide))] at h
      obtain ⟨n₁, s₁, h₁, h⟩ := bind_eq_ok h
      obtain ⟨u, s₂, h₂, h⟩ := bind_eq_ok h
      obtain ⟨u', s₃, h₃, h⟩ := bind_eq_ok h
      obtain ⟨hr, rfl⟩ := expect_ok (by decide) h₃
      cases h
      exact .inr (.inl ⟨rfl, hp, s₁, s₂, h₁, h₂, hr, rfl⟩)
    · next hp =>
      obtain ⟨hn, hg⟩ := leaf_ok h
      exact .inl ⟨by decide, fun _ => by simpa using hp, hn, _, (Grows.forward s 1).trans hg, rfl,
        by rw [Token.atom, ht]; rfl⟩
  case lparen =>
    rw [bind_ok (advance_apply (by rw [ht]; decide))] at h
    obtain ⟨n₁, s₁, h₁, h⟩ := bind_eq_ok h
    obtain ⟨u, s₂, h₂, h⟩ := bind_eq_ok h
    obtain ⟨hr, rfl⟩ := expect_ok (by decide) h₂
    cases h
    exact .inr (.inr ⟨rfl, s₁, h₁, hr, rfl⟩)
  all_goals cases h

private theorem neither_iff {a b c : TokenType} : (!(a == b) && !(a == c)) = true ↔ ¬ (a = b ∨ a = c) := by simp

theorem argLoop_ok (h : argLoop expr n (fuel + 1) s = .ok () s') :
    ((s.current.type = .rparen ∨ s.current.type = .eof) ∧ s' = s) ∨
    (∃ arg s₁ s₂, expr s = .ok arg s₁ ∧ addChecked n arg .tooManyArguments s₁ = .ok () s₂ ∧
      ((s₂.current.type = .comma ∧ argLoop expr n fuel (s₂.forward 1) = .ok () s') ∨
        (s₂.current.type ≠ .comma ∧ s' = s₂))) := by
  rw [argLoop, bind_ok (check_apply _ s), bind_ok (check_apply _ s)] at h
  by_cases hend : s.current.type = .rparen ∨ s.current.type = .eof
  · rw [if_neg (fun hn => neither_iff.mp hn hend)] at h
    cases h
    exact .inl ⟨hend, rfl⟩
  · rw [if_pos (neither_iff.mpr hend)] at h
    obtain ⟨arg, s₁, h₁, h⟩ := bind_eq_ok h
    obtain ⟨u, s₂, h₂, h⟩ := bind_eq_ok h
    refine .inr ⟨arg, s₁, s₂, h₁, h₂, ?_⟩
    by_cases hcomma : s₂.current.type = .comma
    · rw [bind_ok (matchToken_hit hcomma (by decide))] at h
      exact .inl ⟨hcomma, h⟩
    · rw [bind_ok (matchToken_miss hcomma)] at h
      cases h
      exact .inr ⟨hcomma, rfl⟩

theorem parseUnary_ok (h : parseUnary expr (fuel + 1) s = .ok n s') :
    ((s.current.type = .minus ∨ s.current.type = .not) ∧ ∃ operand s₁,
      parseUnary expr fuel (s.forward 1) = .ok operand s₁ ∧
      operatorNode .unop s.current [operand] s₁ = .ok n s') ∨
    expr s = .ok n s' := by
  rw [parseUnary, bind_ok (peek_apply s)] at h
  by_cases hop : s.current.type = .minus ∨ s.current.type = .not
  · have hne : s.current.type ≠ .eof := by
      obtain hop | hop := hop <;> rw [hop] <;> decide
    rw [if_pos hop, bind_ok (advance_apply hne)] at h
    obtain ⟨operand, s₁, h₁, h⟩ := bind_eq_ok h
    exact .inl ⟨hop, operand, s₁, h₁, h⟩
  · rw [if_neg hop] at h
    exact .inr h

theorem binaryLoop_ok {ops : List TokenType} {left : Nat} (heof : TokenType.eof ∉ ops)
    (h : binaryLoop ops expr (fuel + 1) left s = .ok n s') :
    (s.current.type ∈ ops ∧ ∃ right s₁ n₁ s₂, expr (s.forward 1) = .ok right s₁ ∧
      operatorNode .binop s.current [left, right] s₁ = .ok n₁ s₂ ∧ binaryLoop ops expr fuel n₁ s₂ = .ok n s') ∨
    (s.current.type ∉ ops ∧ n = left ∧ s' = s) := by
  rw [binaryLoop, bind_ok (peek_apply s)] at h
  by_cases hop : s.current.type ∈ ops
  · have hne : s.current.type ≠ .eof := fun h => heof (h ▸ hop)
    rw [if_pos hop, bind_ok (advance_apply hne)] at h
    obtain ⟨right, s₁, h₁, h⟩ := bind_eq_ok h
    obtain ⟨n₁, s₂, h₂, h⟩ := bind_eq_ok h
    exact .inl ⟨hop, right, s₁, n₁, s₂, h₁, h₂, h⟩
  · rw [if_neg hop] at h
    cases h
    exact .inr ⟨hop, rfl, rfl⟩

theorem stmtLoop_ok {ends : List TokenType} {e : GkError}
    (h : stmtLoop stmt ends e n (fuel + 1) s = .ok () s') :
    (s.current.type ∈ ends ∧ s' = s) ∨
    (s.current.type ∉ ends ∧ ∃ st s₁ s₂, stmt s = .ok st s₁ ∧ addChecked n st e s₁ = .ok () s₂ ∧
      stmtLoop stmt ends e n fuel s₂.skipLines = .ok () s') := by
  rw [stmtLoop, bind_ok (peek_apply s)] at h
  by_cases hend : s.current.type ∈ ends
  · rw [if_neg (by simpa using hend)] at h
    cases h
    exact .inl ⟨hend, rfl⟩
  · rw [if_pos hend] at h
    obtain ⟨st, s₁, h₁, h⟩ := bind_eq_ok h
    obtain ⟨u, s₂, h₂, h⟩ := bind_eq_ok h
    rw [bind_ok (skipNewlines_apply s₂)] at h
    exact .inr ⟨hend, st, s₁, s₂, h₁, h₂, h⟩

theorem parseBlock_ok (h : parseBlock fuel stmt s = .ok n s') :
    s.current.type = .indent ∧ ∃ s₁ s₂, newNode .block s.current.line (s.forward 1) = .ok n s₁ ∧
      stmtLoop stmt [.dedent, .eof] .blockTooLarge n fuel s₁.skipLines = .ok () s₂ ∧ s' = s₂.skip .dedent := by
  rw [parseBlock, bind_ok (peek_apply s)] at h
  obtain ⟨u, s₀, h₀, h⟩ := bind_eq_ok h
  obtain ⟨hindent, rfl⟩ := expect_ok (by decide) h₀
  obtain ⟨n₁, s₁, h₁, h⟩ := bind_eq_ok h
  rw [bind_ok (skipNewlines_apply s₁)] at h
  obtain ⟨u', s₂, h₂, h⟩ := bind_eq_ok h
  rw [bind_ok (matchToken_apply (by decide) s₂)] at h
  cases h
  exact ⟨hindent, s₁, s₂, h₁, h₂, rfl⟩

theorem parseReturn_ok (ht : s.current.type = .kwReturn) (h : parseReturn expr s = .ok n s') :
    ∃ s₁, newNode .returnNode s.current.line (s.forward 1) = .ok n s₁ ∧
      (((s₁.current.type = .newline ∨ s₁.current.type = .eof) ∧ s' = s₁.skip .newline) ∨
        ∃ e s₂ s₃, expr s₁ = .ok e s₂ ∧ setNode n (fun x => { x with children := [e] }) s₂ = .ok () s₃ ∧
          s' = s₃.skip .newline) := by
  rw [parseReturn, bind_ok (peek_apply s), bind_ok (advance_apply (by rw [ht]; decide))] at h
  obtain ⟨n₁, s₁, h₁, h⟩ := bind_eq_ok h
  rw [bind_ok (check_apply _ s₁), bind_ok (check_apply _ s₁)] at h
  by_cases hend : s₁.current.type = .newline ∨ s₁.current.type = .eof
  · rw [if_neg (fun hn => neither_iff.mp hn hend)] at h
    obtain ⟨m, s₂, h₂, h⟩ := bind_eq_ok h
    obtain rfl := matchToken_ok (by decide) h₂
    cases h
    exact ⟨s₁, h₁, .inl ⟨hend, rfl⟩⟩
  · rw [if_pos (neither_iff.mpr hend)] at h
    obtain ⟨e, s₂, h₂, h⟩ := bind_eq_ok h
    obtain ⟨u, s₃, h₃, h⟩ := bind_eq_ok h
    obtain ⟨m, s₄, h₄, h⟩ := bind_eq_ok h
    obtain rfl := matchToken_ok (by decide) h₄
    cases h
    exact ⟨s₁, h₁, .inr ⟨e, s₂, s₃, h₂, h₃, rfl⟩⟩

theorem parseJump_ok {type : NodeType} (ht : s.current.type ≠ .eof) (h : parseJump type s = .ok n s') :
    newNode type s.current.line ((s.forward 1).skip .newline) = .ok n s' := by
  rw [parseJump, bind_ok (peek_apply s), bind_ok (advance_apply ht),
    bind_ok (matchToken_apply (by decide) _)] at h
  exact h

theorem paramLoop_ok (h : paramLoop n (fuel + 1) s = .ok () s') :
    ((s.current.type = .rparen ∨ s.current.type = .eof) ∧ s' = s) ∨
    (s.current.type = .ident ∧ ∃ pn s₁ s₂,
      leaf .var s.current.line 0 s.current.strVal (s.forward 1) = .ok pn s₁ ∧
      addChild n pn s₁ = .ok () s₂ ∧
      ((s₂.current.type = .comma ∧ paramLoop n fuel (s₂.forward 1) = .ok () s') ∨
        (s₂.current.type ≠ .comma ∧ s' = s₂))) := by
  rw [paramLoop, bind_ok (check_apply _ s), bind_ok (check_apply _ s)] at h
  by_cases hend : s.current.type = .rparen ∨ s.current.type = .eof
  · rw [if_neg (fun hn => neither_iff.mp hn hend)] at h
    cases h
    exact .inl ⟨hend, rfl⟩
  · rw [if_pos (neither_iff.mpr hend), bind_ok (peek_apply s)] at h
    by_cases hident : s.current.type = .ident
    · rw [if_neg (by simpa using hident)] at h
      obtain ⟨w, s₀, h₀, h⟩ := bind_eq_ok h
      obtain rfl := advance_ok (by rw [hident]; decide) h₀
      obtain ⟨pn, s₁, h₁, h⟩ := bind_eq_ok h
      obtain ⟨u, s₂, h₂, h⟩ := bind_eq_ok h
      refine .inr ⟨hident, pn, s₁, s₂, h₁, h₂, ?_⟩
      by_cases hcomma : s₂.current.type = .comma
      · rw [bind_ok (matchToken_hit hcomma (by decide))] at h
        exact .inl ⟨hcomma, h⟩
      · rw [bind_ok (matchToken_miss hcomma)] at h
        cases h
        exact .inr ⟨hcomma, rfl⟩
    · rw [if_pos hident] at h
      cases h

theorem parseDef_ok (ht : s.current.type = .kwDef) (h : parseDef fuel stmt s = .ok n s') :
    (s.forward 1).current.type = .ident ∧ ∃ s₁ s₂ body s₃,
      leaf .defNode s.current.line 0 (s.forward 1).current.strVal (s.forward 2) = .ok n s₁ ∧
      s₁.current.type = .lparen ∧ paramLoop n fuel (s₁.forward 1) = .ok () s₂ ∧ s₂.current.type = .rparen ∧
      (s₂.forward 1).current.type = .colon ∧
      parseBlock fuel stmt ((s₂.forward 2).skip .newline) = .ok body s₃ ∧ addChild n body s₃ = .ok () s' := by
  rw [parseDef, bind_ok (peek_apply s), bind_ok (advance_apply (by rw [ht]; decide)),
    bind_ok (peek_apply _)] at h
  by_cases hident : (s.forward 1).current.type = .ident
  · rw [if_neg (by simpa using hident)] at h
    obtain ⟨w, s₀, h₀, h⟩ := bind_eq_ok h
    obtain rfl := advance_ok (by rw [hident]; decide) h₀
    obtain ⟨n₁, s₁, h₁, h⟩ := bind_eq_ok h
    obtain ⟨u, s₁', h₁', h⟩ := bind_eq_ok h
    obtain ⟨hlparen, rfl⟩ := expect_ok (by decide) h₁'
    obtain ⟨u', s₂, h₂, h⟩ := bind_eq_ok h
    obtain ⟨u'', s₂', h₂', h⟩ := bind_eq_ok h
    obtain ⟨hrparen, rfl⟩ := expect_ok (by decide) h₂'
    obtain ⟨v, s₂'', h₂'', h⟩ := bind_eq_ok h
    obtain ⟨hcolon, rfl⟩ := expect_ok (by decide) h₂''
    rw [bind_ok (matchToken_apply (by decide) _)] at h
    obtain ⟨body, s₃, h₃, h⟩ := bind_eq_ok h
    obtain ⟨v', s₄, h₄, h⟩ := bind_eq_ok h
    cases h
    exact ⟨hident, s₁, s₂, body, s₃, h₁, hlparen, h₂, hrparen, hcolon, h₃, h₄⟩
  · rw [if_pos hident] at h
    cases h

theorem parseHeader_ok {e : GkError} {cb : Nat × Nat} (h : parseHeader fuel expr stmt e s = .ok cb s') :
    ∃ s₁, expr s = .ok cb.1 s₁ ∧ s₁.current.type = .colon ∧
      parseBlock fuel stmt ((s₁.forward 1).skip .newline) = .ok cb.2 s' := by
  rw [parseHeader] at h
  obtain ⟨c, s₁, h₁, h⟩ := bind_eq_ok h
  obtain ⟨u, s₁', h₁', h⟩ := bind_eq_ok h
  obtain ⟨hcolon, rfl⟩ := expect_ok (by decide) h₁'
  rw [bind_ok (matchToken_apply (by decide) _)] at h
  obtain ⟨b, s₂, h₂, h⟩ := bind_eq_ok h
  cases h
  exact ⟨s₁, h₁, hcolon, h₂⟩

theorem parseIf_ok (ht : s.current.type ≠ .eof) (h : parseIf fuel expr stmt s = .ok n s') :
    ∃ s₁ c b s₂ s₃, newNode .ifNode s.current.line (s.forward 1) = .ok n s₁ ∧
      parseHeader fuel expr stmt .colonAfterIf s₁ = .ok (c, b) s₂ ∧
      setNode n (fun x => { x with children := [c, b] }) s₂ = .ok () s₃ ∧
      ((s₃.skipLines.current.type = .kwElif ∧ ∃ e s₄, stmt s₃.skipLines = .ok e s₄ ∧
          setNode n (fun x => { x with children := [c, b, e] }) s₄ = .ok () s') ∨
        (s₃.skipLines.current.type = .kwElse ∧ (s₃.skipLines.forward 1).current.type = .colon ∧ ∃ e s₄,
          parseBlock fuel stmt ((s₃.skipLines.forward 2).skip .newline) = .ok e s₄ ∧
          setNode n (fun x => { x with children := [c, b, e] }) s₄ = .ok () s') ∨
        (s₃.skipLines.current.type ≠ .kwElif ∧ s₃.skipLines.current.type ≠ .kwElse ∧ s' = s₃.skipLines)) := by
  rw [parseIf, bind_ok (peek_apply s), bind_ok (advance_apply ht)] at h
  obtain ⟨n₁, s₁, h₁, h⟩ := bind_eq_ok h
  obtain ⟨⟨c, b⟩, s₂, h₂, h⟩ := bind_eq_ok h
  obtain ⟨u, s₃, h₃, h⟩ := bind_eq_ok h
  rw [bind_ok (skipNewlines_apply s₃), bind_ok (check_apply _ _)] at h
  by_cases helif : s₃.skipLines.current.type = .kwElif
  · rw [if_pos (beq_iff_eq.mpr helif)] at h
    obtain ⟨e, s₄, h₄, h⟩ := bind_eq_ok h
    obtain ⟨u', s₅, h₅, h⟩ := bind_eq_ok h
    cases h
    exact ⟨s₁, c, b, s₂, s₃, h₁, h₂, h₃, .inl ⟨helif, e, s₄, h₄, h₅⟩⟩
  · rw [if_neg (by simpa using helif), bind_ok (check_apply _ _)] at h
    by_cases helse : s₃.skipLines.current.type = .kwElse
    · rw [if_pos (beq_iff_eq.mpr helse), bind_ok (advance_apply (by rw [helse]; decide))] at h
      obtain ⟨v, s₄, h₄, h⟩ := bind_eq_ok h
      obtain ⟨hcolon, rfl⟩ := expect_ok (by decide) h₄
      rw [bind_ok (matchToken_apply (by decide) _)] at h
      obtain ⟨e, s₅, h₅, h⟩ := bind_eq_ok h
      obtain ⟨u', s₆, h₆, h⟩ := bind_eq_ok h
      cases h
      exact ⟨s₁, c, b, s₂, s₃, h₁, h₂, h₃, .inr (.inl ⟨helse, hcolon, e, s₅, h₅, h₆⟩)⟩
    · rw [if_neg (by simpa using helse)] at h
      cases h
      exact ⟨s₁, c, b, s₂, s₃, h₁, h₂, h₃, .inr (.inr ⟨helif, helse, rfl⟩)⟩

theorem parseWhile_ok (ht : s.current.type = .kwWhile) (h : parseWhile fuel expr stmt s = .ok n s') :
    ∃ s₁ c b s₂, newNode .whileNode s.current.line (s.forward 1) = .ok n s₁ ∧
      parseHeader fuel expr stmt .colonAfterWhile s₁ = .ok (c, b) s₂ ∧
      setNode n (fun x => { x with children := [c, b] }) s₂ = .ok () s' := by
  rw [parseWhile, bind_ok (peek_apply s), bind_ok (advance_apply (by rw [ht]; decide))] at h
  obtain ⟨n₁, s₁, h₁, h⟩ := bind_eq_ok h
  obtain ⟨⟨c, b⟩, s₂, h₂, h⟩ := bind_eq_ok h
  obtain ⟨u, s₃, h₃, h⟩ := bind_eq_ok h
  cases h
  exact ⟨s₁, c, b, s₂, h₁, h₂, h₃⟩

theorem parseFor_ok (ht : s.current.type = .kwFor) (h : parseFor fuel expr stmt s = .ok n s') :
    (s.forward 1).current.type = .ident ∧ (s.forward 2).current.type = .kwIn ∧ ∃ s₁ c b s₂,
      leaf .forNode s.current.line 0 (s.forward 1).current.strVal (s.forward 3) = .ok n s₁ ∧
      parseHeader fuel expr stmt .colonAfterFor s₁ = .ok (c, b) s₂ ∧
      setNode n (fun x => { x with children := [c, b] }) s₂ = .ok () s' := by
  rw [parseFor, bind_ok (peek_apply s), bind_ok (advance_apply (by rw [ht]; decide)),
    bind_ok (peek_apply _)] at h
  by_cases hident : (s.forward 1).current.type = .ident
  · rw [if_neg (by simpa using hident)] at h
    obtain ⟨w, s₀, h₀, h⟩ := bind_eq_ok h
    obtain rfl := advance_ok (by rw [hident]; decide) h₀
    obtain ⟨u, s₀, h₀, h⟩ := bind_eq_ok h
    obtain ⟨hin, rfl⟩ := expect_ok (by decide) h₀
    obtain ⟨n₁, s₁, h₁, h⟩ := bind_eq_ok h
    obtain ⟨⟨c, b⟩, s₂, h₂, h⟩ := bind_eq_ok h
    obtain ⟨u', s₃, h₃, h⟩ := bind_eq_ok h
    cases h
    exact ⟨hident, hin, s₁, c, b, s₂, h₁, h₂, h₃⟩
  · rw [if_pos hident] at h
    cases h

theorem parseAssign_ok (ht : s.current.type = .ident) (ht' : (s.forward 1).current.type = .assign)
    (h : parseAssign expr s = .ok n s') :
    ∃ s₁ e s₂ s₃, leaf .assign s.current.line 0 s.current.strVal (s.forward 2) = .ok n s₁ ∧ expr s₁ = .ok e s₂ ∧
      setNode n (fun x => { x with children := [e] }) s₂ = .ok () s₃ ∧ s' = s₃.skip .newline := by
  rw [parseAssign, bind_ok (peek_apply s), bind_ok (advance_apply (by rw [ht]; decide)),
    bind_ok (advance_apply (by rw [ht']; decide))] at h
  obtain ⟨n₁, s₁, h₁, h⟩ := bind_eq_ok h
  obtain ⟨e, s₂, h₂, h⟩ := bind_eq_ok h
  obtain ⟨u, s₃, h₃, h⟩ := bind_eq_ok h
  rw [bind_ok (matchToken_apply (by decide) s₃)] at h
  cases h
  exact ⟨s₁, e, s₂, s₃, h₁, h₂, h₃, rfl⟩

theorem parseExprStmt_ok (h : parseExprStmt expr s = .ok n s') :
    ∃ s₁, expr s = .ok n s₁ ∧ s' = s₁.skip .newline := by
  rw [parseExprStmt] at h
  obtain ⟨e, s₁, h₁, h⟩ := bind_eq_ok h
  rw [bind_ok (matchToken_apply (by decide) s₁)] at h
  cases h
  exact ⟨s₁, h₁, rfl⟩

theorem assignFollows_apply (s : Run) : ∃ b, assignFollows s = .ok b s ∧
    (b = true → (s.forward 1).current.type = .assign) := by
  refine ⟨_, rfl, fun h => ?_⟩
  rw [Bool.and_eq_true, beq_iff_eq] at h
  exact h.2

/-- The statements, by the token that they begin with. -/
theorem parseStmt_ok (h : parseStmt (fuel + 1) s = .ok n s') :
    (s.current.type = .kwReturn ∧ parseReturn (parseExpr fuel) s = .ok n s') ∨
    (s.current.type = .kwBreak ∧ parseJump .breakNode s = .ok n s') ∨
    (s.current.type = .kwContinue ∧ parseJump .continueNode s = .ok n s') ∨
    (s.current.type = .kwDef ∧ parseDef fuel (parseStmt fuel) s = .ok n s') ∨
    ((s.current.type = .kwIf ∨ s.current.type = .kwElif) ∧
      parseIf fuel (parseExpr fuel) (parseStmt fuel) s = .ok n s') ∨
    (s.current.type = .kwWhile ∧ parseWhile fuel (parseExpr fuel) (parseStmt fuel) s = .ok n s') ∨
    (s.current.type = .kwFor ∧ parseFor fuel (parseExpr fuel) (parseStmt fuel) s = .ok n s') ∨
    (s.current.type = .ident ∧ (s.forward 1).current.type = .assign ∧
      parseAssign (parseExpr fuel) s = .ok n s') ∨
    parseExprStmt (parseExpr fuel) s = .ok n s' := by
  rw [parseStmt, bind_ok (peek_apply s)] at h
  cases ht : s.current.type <;> simp only [ht] at h
  case kwReturn => exact .inl ⟨rfl, h⟩
  case kwBreak => exact .inr (.inl ⟨rfl, h⟩)
  case kwContinue => exact .inr (.inr (.inl ⟨rfl, h⟩))
  case kwDef => exact .inr (.inr (.inr (.inl ⟨rfl, h⟩)))
  case kwIf => exact .inr (.inr (.inr (.inr (.inl ⟨.inl rfl, h⟩))))
  case kwElif => exact .inr (.inr (.inr (.inr (.inl ⟨.inr rfl, h⟩))))
  case kwWhile => exact .inr (.inr (.inr (.inr (.inr (.inl ⟨rfl, h⟩)))))
  case kwFor => exact .inr (.inr (.inr (.inr (.inr (.inr (.inl ⟨rfl, h⟩))))))
  case ident =>
    obtain ⟨b, hb, hassign⟩ := assignFollows_apply s
    rw [bind_ok hb] at h
    cases b with
    | true => exact .inr (.inr (.inr (.inr (.inr (.inr (.inr (.inl ⟨rfl, hassign rfl, h⟩)))))))
    | false => exact .inr (.inr (.inr (.inr (.inr (.inr (.inr (.inr h)))))))
  all_goals exact .inr (.inr (.inr (.inr (.inr (.inr (.inr (.inr h)))))))

theorem skip_eq (s : Run) (t : TokenType) : ∃ k, s.skip t = s.forward k := by
  unfold Run.skip
  split
  · exact ⟨1, rfl⟩
  · exact ⟨0, rfl⟩

/-- The state in which `gk_parse` begins with the root. -/
def Run.cleared (s : Run) : Run := ⟨{ s.toGkState with nodes := [], tokPos := 0 }, s.toGkState :: s.past⟩

theorem gkParse_eq (s : Run) : gkParse s = (do
    let root ← newNode .block 0
    skipNewlines
    stmtLoop (parseStmt (s.tokens.length + 2)) [.eof] .tooManyStatements root (s.tokens.length + 2)
    return root : GkM Nat) s.cleared := rfl

theorem gkParse_ok (h : gkParse s = .ok n s') : ∃ s₁, newNode .block 0 s.cleared = .ok n s₁ ∧
    stmtLoop (parseStmt (s.tokens.length + 2)) [.eof] .tooManyStatements n (s.tokens.length + 2) s₁.skipLines =
      .ok () s' := by
  rw [gkParse_eq] at h
  obtain ⟨root, s₁, h₁, h⟩ := bind_eq_ok h
  rw [bind_ok (skipNewlines_apply s₁)] at h
  obtain ⟨u, s₂, h₂, h⟩ := bind_eq_ok h
  cases h
  exact ⟨s₁, h₁, h₂⟩

end GeckoOS.Gk
