import GeckoOS.Gk.ParserCases

/-! A successful parse fills the node array with one syntax tree. -/
namespace GeckoOS.Gk
open Lib

/-- What was added to the nodes of `s` is one tree of the form `F`, with the root `n`. -/
def Built (F : Lib.Tree Label → Prop) (s : Run) (n : Nat) (s' : Run) : Prop :=
  ∃ k new t, Grows k new s s' ∧ F t ∧ Laid (cell s'.nodes) s.nodes.length [t] [n] s'.nodes.length

/-- The parser builds a tree whenever it succeeds. -/
def Builds (F : Lib.Tree Label → Prop) (p : GkM Nat) : Prop := ∀ s n s', p s = .ok n s' → Built F s n s'

private theorem builds_throw (F : Lib.Tree Label → Prop) (e : Stop) : Builds F (throw e) := by
  intro s n s' h
  cases h

def IsExpr (t : Lib.Tree Label) : Prop := ∃ e : Expr, e.toTree = t
def IsStmt (t : Lib.Tree Label) : Prop := ∃ st : Stmt, st.toTree = t

theorem exprTrees_append (es : List Expr) (e : Expr) : exprTrees (es ++ [e]) = exprTrees es ++ [e.toTree] := by
  induction es with
  | nil => rfl
  | cons e' es ih => rw [List.cons_append, exprTrees, ih, exprTrees, List.cons_append]

theorem stmtTrees_append (sts : List Stmt) (st : Stmt) :
    stmtTrees (sts ++ [st]) = stmtTrees sts ++ [st.toTree] := by
  induction sts with
  | nil => rfl
  | cons st' sts ih => rw [List.cons_append, stmtTrees, ih, stmtTrees, List.cons_append]

theorem paramTrees_append (params : List (List UInt8)) (p : List UInt8) :
    paramTrees (params ++ [p]) = paramTrees params ++ [.node (.text .var p) []] := List.map_append

variable {s s' : Run} {n fuel k : Nat} {expr stmt : GkM Nat} {label : Label}

private theorem argLoop_open (he : Builds IsExpr expr) {args : List Expr}
    (ho : Open s k label (exprTrees args) s') :
    ∀ {s''}, argLoop expr s.nodes.length fuel s' = .ok () s'' →
      ∃ k' args', Open s k' label (exprTrees args') s'' := by
  induction fuel generalizing s' k args with
  | zero => nofun
  | succ fuel ih =>
    intro s'' h
    obtain ⟨-, rfl⟩ | ⟨arg, s₁, s₂, h₁, h₂, h⟩ := argLoop_ok h
    · exact ⟨k, args, ho⟩
    · obtain ⟨k₁, new, t, hg, ⟨e, rfl⟩, hl⟩ := he _ _ _ h₁
      have ho₂ := ho.addChecked_ok hg hl h₂
      rw [← exprTrees_append] at ho₂
      obtain ⟨-, h⟩ | ⟨-, rfl⟩ := h
      · exact ih (ho₂.forward 1) h
      · exact ⟨_, _, ho₂⟩

private theorem builds_parsePrimary (he : Builds IsExpr expr) : Builds IsExpr (parsePrimary fuel expr) := by
  intro s n s' h
  obtain ⟨-, -, rfl, node, hg, hkids, htree⟩ | ⟨-, -, s₁, s₂, h₁, h₂, -, rfl⟩ | ⟨-, s₁, h₁, -, rfl⟩ :=
    parsePrimary_ok h
  · refine ⟨_, _, _, hg, ⟨_, htree⟩, hg.laid_post ?_⟩
    rw [hkids]
    exact .nil _
  · obtain ⟨rfl, hg⟩ := leaf_ok h₁
    have ho : Open s 2 (.text (callType s.current.strVal) s.current.strVal) (exprTrees []) s₁ :=
      Open.single ((Grows.forward s 2).trans hg) rfl
    obtain ⟨k, args, ho'⟩ := argLoop_open he ho h₂
    have hc := ho'.forward 1
    obtain ⟨new, hg'⟩ := hc.grows
    exact ⟨_, new, _, hg', ⟨.call s.current.strVal args, rfl⟩, hc.close⟩
  · obtain ⟨k, new, t, hg, ht, hl⟩ := he _ _ _ h₁
    exact ⟨_, _, t, ((Grows.forward s 1).trans hg).trans (.forward s₁ 1), ht, hl⟩

/-- An operator over what stands behind `s`. -/
private theorem operator_laid {type : NodeType} {tok : Token} {trees : List (Lib.Tree Label)} {roots : List Nat}
    {new : List Node} {s'' : Run} (hg : Grows k new s s')
    (hl : Laid (cell s'.nodes) s.nodes.length trees roots s'.nodes.length)
    (h : operatorNode type tok roots s' = .ok n s'') :
    ∃ k new, Grows k new s s'' ∧
      Laid (cell s''.nodes) s.nodes.length [.node (.operator type tok.type) trees] [n] s''.nodes.length := by
  obtain ⟨rfl, hg'⟩ := operatorNode_ok h
  exact ⟨_, _, hg.trans hg', hg'.laid_post hl⟩

private theorem builds_parseUnary (hp : Builds IsExpr expr) : Builds IsExpr (parseUnary expr fuel) := by
  induction fuel with
  | zero => exact builds_throw _ _
  | succ fuel ih =>
    intro s n s' h
    obtain ⟨hop, operand, s₁, h₁, h⟩ | h := parseUnary_ok h
    · obtain ⟨k, new, t, hg, ⟨e, rfl⟩, hl⟩ := ih _ _ _ h₁
      obtain ⟨k', new', hg', hl'⟩ := operator_laid ((Grows.forward s 1).trans hg) hl h
      refine ⟨k', new', _, hg', ?_, hl'⟩
      obtain hop | hop := hop
      · exact ⟨.unop .neg e, by rw [hop]; rfl⟩
      · exact ⟨.unop .not e, by rw [hop]; rfl⟩
    · exact hp _ _ _ h

/-- The operators of a binary level. -/
private def IsBinary (ops : List TokenType) : Prop := ∀ t ∈ ops, ∃ op : BinOp, op.token = t

private theorem IsBinary.eof {ops : List TokenType} (h : IsBinary ops) : TokenType.eof ∉ ops := by
  intro hm
  obtain ⟨op, hop⟩ := h _ hm
  cases op <;> cases hop

private theorem binaryLoop_builds {ops : List TokenType} {left : Nat} {e : Expr} {new : List Node}
    (hops : IsBinary ops)
    (hp : Builds IsExpr expr) (hg : Grows k new s s')
    (hl : Laid (cell s'.nodes) s.nodes.length [e.toTree] [left] s'.nodes.length) :
    ∀ {s''}, binaryLoop ops expr fuel left s' = .ok n s'' → Built IsExpr s n s'' := by
  induction fuel generalizing s' k new left e with
  | zero => nofun
  | succ fuel ih =>
    intro s'' h
    obtain ⟨hop, right, s₁, n₁, s₂, h₁, h₂, h⟩ | ⟨-, rfl, rfl⟩ := binaryLoop_ok hops.eof h
    · obtain ⟨k₁, new₁, t, hg₁, ⟨e', rfl⟩, hl₁⟩ := hp _ _ _ h₁
      have hl₁' := (hg₁.laid hl (Nat.le_refl _)).append hl₁
      obtain ⟨k', new', hg', hl'⟩ := operator_laid ((hg.trans (.forward s' 1)).trans hg₁) hl₁' h₂
      obtain ⟨op, hop⟩ := hops _ hop
      rw [← hop] at hl'
      exact ih (e := .binop op e e') hg' hl' h
    · exact ⟨k, new, _, hg, ⟨e, rfl⟩, hl⟩

private theorem builds_parseBinary {ops : List TokenType} (hops : IsBinary ops) (hp : Builds IsExpr expr) :
    Builds IsExpr (parseBinary ops fuel expr) := by
  intro s n s' h
  obtain ⟨left, s₁, h₁, h⟩ := bind_eq_ok h
  obtain ⟨k, new, t, hg, ⟨e, rfl⟩, hl⟩ := hp _ _ _ h₁
  exact binaryLoop_builds hops hp hg hl h

private theorem isBinary_mulOps : IsBinary mulOps := by
  intro t ht
  simp only [mulOps, List.mem_cons, List.not_mem_nil, or_false] at ht
  obtain rfl | rfl | rfl := ht
  · exact ⟨.mul, rfl⟩
  · exact ⟨.div, rfl⟩
  · exact ⟨.mod, rfl⟩

private theorem isBinary_addOps : IsBinary addOps := by
  intro t ht
  simp only [addOps, List.mem_cons, List.not_mem_nil, or_false] at ht
  obtain rfl | rfl := ht
  · exact ⟨.add, rfl⟩
  · exact ⟨.sub, rfl⟩

private theorem isBinary_cmpOps : IsBinary cmpOps := by
  intro t ht
  simp only [cmpOps, List.mem_cons, List.not_mem_nil, or_false] at ht
  obtain rfl | rfl | rfl | rfl | rfl | rfl := ht
  · exact ⟨.eq, rfl⟩
  · exact ⟨.neq, rfl⟩
  · exact ⟨.lt, rfl⟩
  · exact ⟨.le, rfl⟩
  · exact ⟨.gt, rfl⟩
  · exact ⟨.ge, rfl⟩

private theorem isBinary_single (op : BinOp) : IsBinary [op.token] :=
  fun _ ht => ⟨op, (List.mem_singleton.mp ht).symm⟩

theorem builds_parseExpr (fuel : Nat) : Builds IsExpr (parseExpr fuel) := by
  induction fuel with
  | zero => exact builds_throw _ _
  | succ fuel ih =>
    exact builds_parseBinary (isBinary_single .or) <| builds_parseBinary (isBinary_single .and) <|
      builds_parseBinary isBinary_cmpOps <| builds_parseBinary isBinary_addOps <|
        builds_parseBinary isBinary_mulOps <|
      builds_parseUnary <| builds_parsePrimary ih

private theorem stmtLoop_open {ends : List TokenType} {e : GkError} (hs : Builds IsStmt stmt) {sts : List Stmt}
    (ho : Open s k label (stmtTrees sts) s') : ∀ {s''}, stmtLoop stmt ends e s.nodes.length fuel s' =
      .ok () s'' →
      ∃ k' sts', Open s k' label (stmtTrees sts') s'' := by
  induction fuel generalizing s' k sts with
  | zero => nofun
  | succ fuel ih =>
    intro s'' h
    obtain ⟨-, rfl⟩ | ⟨-, st, s₁, s₂, h₁, h₂, h⟩ := stmtLoop_ok h
    · exact ⟨k, sts, ho⟩
    · obtain ⟨k₁, new, t, hg, ⟨st', rfl⟩, hl⟩ := hs _ _ _ h₁
      have ho₂ := ho.addChecked_ok hg hl h₂
      rw [← stmtTrees_append] at ho₂
      exact ih (ho₂.forward _) h

/-- What a finished node gives. -/
private theorem Open.builds {F : Lib.Tree Label → Prop} {trees : List (Lib.Tree Label)}
    (h : Open s k label trees s')
    (hF : F (.node label trees)) : Built F s s.nodes.length s' := by
  obtain ⟨new, hg⟩ := h.grows
  exact ⟨k, new, _, hg, hF, h.close⟩

private theorem Open.skip {trees : List (Lib.Tree Label)} (h : Open s k label trees s') (t : TokenType) :
    ∃ k', Open s k' label trees (s'.skip t) := by
  obtain ⟨j, hj⟩ := skip_eq s' t
  rw [hj]
  exact ⟨k + j, h.forward j⟩

/-- A leading part of the tokens belongs to no node. -/
private theorem builds_after {F : Lib.Tree Label → Prop} {p : GkM Nat} {s₁ : Run} (hp : Builds F p)
    (hs : ∃ j, s₁ = s.forward j)
    (h : p s₁ = .ok n s') : Built F s n s' := by
  obtain ⟨j, rfl⟩ := hs
  obtain ⟨k, new, t, hg, ht, hl⟩ := hp _ _ _ h
  exact ⟨_, _, t, (Grows.forward s j).trans hg, ht, hl⟩

private theorem forward_forward (s : Run) (j k : Nat) : (s.forward j).forward k = s.forward (j + k) := by
  simp only [Run.forward, Nat.add_assoc]

theorem forward_skip (s : Run) (j : Nat) (t : TokenType) : ∃ k, (s.forward j).skip t = s.forward k := by
  obtain ⟨k, hk⟩ := skip_eq (s.forward j) t
  exact ⟨j + k, by rw [hk, forward_forward]⟩

theorem builds_parseBlock (hs : Builds IsStmt stmt) : Builds IsStmt (parseBlock fuel stmt) := by
  intro s n s' h
  obtain ⟨-, s₁, s₂, h₁, h₂, rfl⟩ := parseBlock_ok h
  obtain ⟨rfl, hg⟩ := newNode_ok h₁
  have ho : Open s 1 (.plain .block) (stmtTrees []) s₁ := Open.single ((Grows.forward s 1).trans hg) rfl
  obtain ⟨k, sts, ho'⟩ := stmtLoop_open hs (ho.forward _) h₂
  obtain ⟨k', ho''⟩ := ho'.skip .dedent
  exact ho''.builds ⟨.block sts, rfl⟩

private theorem builds_parseReturn (he : Builds IsExpr expr) (ht : s.current.type = .kwReturn)
    (h : parseReturn expr s = .ok n s') : Built IsStmt s n s' := by
  obtain ⟨s₁, h₁, h⟩ := parseReturn_ok ht h
  obtain ⟨rfl, hg⟩ := newNode_ok h₁
  have hg' := (Grows.forward s 1).trans hg
  obtain ⟨-, rfl⟩ | ⟨e, s₂, s₃, h₂, h₃, rfl⟩ := h
  · obtain ⟨k, ho⟩ := (Open.single hg' rfl).skip .newline
    exact ho.builds ⟨.ret none, rfl⟩
  · obtain ⟨k, new, t, hg₂, ⟨e', rfl⟩, hl⟩ := he _ _ _ h₂
    obtain ⟨-, ho⟩ := ((Behind.single hg').append hg₂ hl).set h₃
    obtain ⟨k', ho'⟩ := ho.skip .newline
    exact ho'.builds ⟨.ret (some e'), rfl⟩

private theorem builds_parseJump {type : NodeType} (ht : s.current.type ≠ .eof)
    (hF : IsStmt (.node (.plain type) []))
    (h : parseJump type s = .ok n s') : Built IsStmt s n s' := by
  have h := parseJump_ok ht h
  obtain ⟨j, hj⟩ := forward_skip s 1 .newline
  rw [hj] at h
  obtain ⟨rfl, hg⟩ := newNode_ok h
  exact (Open.single ((Grows.forward s j).trans hg) rfl).builds hF

private theorem paramLoop_open {params : List (List UInt8)}
    (ho : Open s k label (paramTrees params) s') :
    ∀ {s''}, paramLoop s.nodes.length fuel s' = .ok () s'' →
      ∃ k' params', Open s k' label (paramTrees params') s'' := by
  induction fuel generalizing s' k params with
  | zero => nofun
  | succ fuel ih =>
    intro s'' h
    obtain ⟨-, rfl⟩ | ⟨-, pn, s₁, s₂, h₁, h₂, h⟩ := paramLoop_ok h
    · exact ⟨k, params, ho⟩
    · obtain ⟨rfl, hg⟩ := leaf_ok h₁
      have hl : Laid (cell s₁.nodes) s'.nodes.length [.node (.text .var s'.current.strVal) []] [s'.nodes.length]
          s₁.nodes.length := hg.laid_post (.nil _)
      obtain ⟨-, ho₂⟩ := ho.addChild_ok ((Grows.forward s' 1).trans hg) hl h₂
      rw [← paramTrees_append] at ho₂
      obtain ⟨-, h⟩ | ⟨-, rfl⟩ := h
      · exact ih (ho₂.forward 1) h
      · exact ⟨_, _, ho₂⟩

private theorem builds_parseDef (hs : Builds IsStmt stmt) (ht : s.current.type = .kwDef)
    (h : parseDef fuel stmt s = .ok n s') : Built IsStmt s n s' := by
  obtain ⟨-, s₁, s₂, body, s₃, h₁, -, h₂, -, -, h₃, h₄⟩ := parseDef_ok ht h
  obtain ⟨rfl, hg⟩ := leaf_ok h₁
  have ho : Open s 2 (.text .defNode (s.forward 1).current.strVal) (paramTrees []) s₁ :=
    Open.single ((Grows.forward s 2).trans hg) rfl
  obtain ⟨k, params, ho'⟩ := paramLoop_open (ho.forward 1) h₂
  obtain ⟨k', new, t, hg', ⟨st, rfl⟩, hl⟩ := builds_after (builds_parseBlock hs) (forward_skip s₂ 2 .newline) h₃
  obtain ⟨-, ho''⟩ := ho'.addChild_ok hg' hl h₄
  exact ho''.builds ⟨.define (s.forward 1).current.strVal params st, rfl⟩

/-- A header with its condition and its block. -/
private theorem builds_parseHeader {e : GkError} {cb : Nat × Nat} (he : Builds IsExpr expr)
    (hs : Builds IsStmt stmt)
    (h : parseHeader fuel expr stmt e s = .ok cb s') : ∃ (k : Nat) (new : List Node) (c : Expr) (b : Stmt),
      Grows k new s s' ∧ Laid (cell s'.nodes) s.nodes.length [c.toTree, b.toTree]
        [cb.1, cb.2] s'.nodes.length := by
  obtain ⟨s₁, h₁, -, h₂⟩ := parseHeader_ok h
  obtain ⟨k, new, t, hg, ⟨c, rfl⟩, hl⟩ := he _ _ _ h₁
  obtain ⟨k', new', t', hg', ⟨b, rfl⟩, hl'⟩ :=
    builds_after (builds_parseBlock hs) (forward_skip s₁ 1 .newline) h₂
  exact ⟨_, _, c, b, hg.trans hg', (hg'.laid hl (Nat.le_refl _)).append hl'⟩

private theorem builds_parseIf (he : Builds IsExpr expr) (hs : Builds IsStmt stmt) (ht : s.current.type ≠ .eof)
    (h : parseIf fuel expr stmt s = .ok n s') : Built IsStmt s n s' := by
  obtain ⟨s₁, c, b, s₂, s₃, h₁, h₂, h₃, h⟩ := parseIf_ok ht h
  obtain ⟨rfl, hg⟩ := newNode_ok h₁
  obtain ⟨k, new, cond, body, hg₂, hl⟩ := builds_parseHeader he hs h₂
  obtain ⟨hb, ho⟩ := ((Behind.single ((Grows.forward s 1).trans hg)).append hg₂ hl).set h₃
  have hb' := hb.forward (s₃.ahead.takeWhile (·.type == .newline)).length
  obtain ⟨-, e, s₄, h₄, h₅⟩ | ⟨-, -, e, s₄, h₄, h₅⟩ | ⟨-, -, rfl⟩ := h
  · obtain ⟨k', new', t, hg₄, ⟨els, rfl⟩, hl₄⟩ := hs _ _ _ h₄
    obtain ⟨-, ho'⟩ := (hb'.append hg₄ hl₄).set h₅
    exact ho'.builds ⟨.iteElse cond body els, rfl⟩
  · obtain ⟨k', new', t, hg₄, ⟨els, rfl⟩, hl₄⟩ :=
      builds_after (builds_parseBlock hs) (forward_skip s₃.skipLines 2 .newline) h₄
    obtain ⟨-, ho'⟩ := (hb'.append hg₄ hl₄).set h₅
    exact ho'.builds ⟨.iteElse cond body els, rfl⟩
  · exact (ho.forward _).builds ⟨.ite cond body, rfl⟩

private theorem builds_parseWhile (he : Builds IsExpr expr) (hs : Builds IsStmt stmt)
    (ht : s.current.type = .kwWhile)
    (h : parseWhile fuel expr stmt s = .ok n s') : Built IsStmt s n s' := by
  obtain ⟨s₁, c, b, s₂, h₁, h₂, h₃⟩ := parseWhile_ok ht h
  obtain ⟨rfl, hg⟩ := newNode_ok h₁
  obtain ⟨k, new, cond, body, hg₂, hl⟩ := builds_parseHeader he hs h₂
  obtain ⟨-, ho⟩ := ((Behind.single ((Grows.forward s 1).trans hg)).append hg₂ hl).set h₃
  exact ho.builds ⟨.loop cond body, rfl⟩

private theorem builds_parseFor (he : Builds IsExpr expr) (hs : Builds IsStmt stmt)
    (ht : s.current.type = .kwFor)
    (h : parseFor fuel expr stmt s = .ok n s') : Built IsStmt s n s' := by
  obtain ⟨-, -, s₁, c, b, s₂, h₁, h₂, h₃⟩ := parseFor_ok ht h
  obtain ⟨rfl, hg⟩ := leaf_ok h₁
  obtain ⟨k, new, iter, body, hg₂, hl⟩ := builds_parseHeader he hs h₂
  obtain ⟨-, ho⟩ := ((Behind.single ((Grows.forward s 3).trans hg)).append hg₂ hl).set h₃
  exact ho.builds ⟨.forIn (s.forward 1).current.strVal iter body, rfl⟩

private theorem builds_parseAssign (he : Builds IsExpr expr) (ht : s.current.type = .ident)
    (ht' : (s.forward 1).current.type = .assign) (h : parseAssign expr s = .ok n s') :
    Built IsStmt s n s' := by
  obtain ⟨s₁, e, s₂, s₃, h₁, h₂, h₃, rfl⟩ := parseAssign_ok ht ht' h
  obtain ⟨rfl, hg⟩ := leaf_ok h₁
  obtain ⟨k, new, t, hg₂, ⟨e', rfl⟩, hl⟩ := he _ _ _ h₂
  obtain ⟨-, ho⟩ := ((Behind.single ((Grows.forward s 2).trans hg)).append hg₂ hl).set h₃
  obtain ⟨k', ho'⟩ := ho.skip .newline
  exact ho'.builds ⟨.assign s.current.strVal e', rfl⟩

private theorem builds_parseExprStmt (he : Builds IsExpr expr) (h : parseExprStmt expr s = .ok n s') :
    Built IsStmt s n s' := by
  obtain ⟨s₁, h₁, rfl⟩ := parseExprStmt_ok h
  obtain ⟨k, new, t, hg, ⟨e, rfl⟩, hl⟩ := he _ _ _ h₁
  obtain ⟨j, hj⟩ := skip_eq s₁ .newline
  rw [hj]
  exact ⟨_, _, _, hg.trans (.forward s₁ j), ⟨.expr e, rfl⟩, hl⟩

theorem builds_parseStmt (fuel : Nat) : Builds IsStmt (parseStmt fuel) := by
  induction fuel with
  | zero => exact builds_throw _ _
  | succ fuel ih =>
    intro s n s' h
    have he := builds_parseExpr fuel
    obtain ⟨ht, h⟩ | ⟨ht, h⟩ | ⟨ht, h⟩ | ⟨ht, h⟩ | ⟨ht, h⟩ | ⟨ht, h⟩ | ⟨ht, h⟩ | ⟨ht, ht', h⟩ | h :=
      parseStmt_ok h
    · exact builds_parseReturn he ht h
    · exact builds_parseJump (by rw [ht]; decide) ⟨.brk, rfl⟩ h
    · exact builds_parseJump (by rw [ht]; decide) ⟨.cont, rfl⟩ h
    · exact builds_parseDef ih ht h
    · exact builds_parseIf he ih (by obtain ht | ht := ht <;> rw [ht] <;> decide) h
    · exact builds_parseWhile he ih ht h
    · exact builds_parseFor he ih ht h
    · exact builds_parseAssign he ht ht' h
    · exact builds_parseExprStmt he h

/-- The nodes after a successful parse are those of one block, whose root is the first of them. -/
theorem gkParse_tree (h : gkParse s = .ok n s') : n = 0 ∧ ∃ sts,
    Laid (cell s'.nodes) 0 [(Stmt.block sts).toTree] [0] s'.nodes.length := by
  obtain ⟨s₁, h₁, h⟩ := gkParse_ok h
  obtain ⟨rfl, hg⟩ := newNode_ok h₁
  have ho : Open s.cleared 0 (.plain .block) (stmtTrees []) s₁ := Open.single hg rfl
  obtain ⟨k, sts, ho'⟩ := stmtLoop_open (builds_parseStmt _) (ho.forward _) h
  exact ⟨rfl, sts, ho'.close⟩

end GeckoOS.Gk
