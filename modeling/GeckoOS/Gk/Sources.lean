import GeckoOS.Gk.Errors

/-! Where the numbers and the texts of a script come from: those of a token from
a lexeme, those of a node from a token. -/
namespace GeckoOS.Gk
open Lib

/-- A token of a lexeme, or one without number and text. -/
def Lexical (t : Token) : Prop :=
  (∃ type line, t = ⟨type, 0, [], line⟩) ∨ ∃ c src line, (lexeme c src).1.token line = some t

/-! The lexer. -/

/-- A part of the lexer that emits nothing else. -/
def EmitsLexical {α : Type} (p : GkM α) : Prop :=
  Gives (fun s : Run => ∀ t ∈ s.tokens, Lexical t) (fun _ => True) p

section
variable {line fuel indent : Nat} {src : List UInt8} {t : Token}

theorem lexical_layout (type : TokenType) (line : Nat) : Lexical ⟨type, 0, [], line⟩ := .inl ⟨type, line, rfl⟩

theorem emitsLexical_orFail (ht : Lexical t) : EmitsLexical (orFail (emitToken t)) := by
  refine fun s hs => ⟨?_, fun _ _ _ => trivial⟩
  rw [orFail_emit]
  split
  · exact hs
  · intro u hu
    obtain hu | hu := List.mem_append.mp hu
    · exact hs u hu
    · rw [List.mem_singleton.mp hu]
      exact ht

theorem emitsLexical_emitLexeme {l : Lexeme} (hl : ∀ t, l.token line = some t → Lexical t) :
    EmitsLexical (emitLexeme line l) := by
  cases l with
  | nothing => exact .pure trivial
  | int v => exact emitsLexical_orFail (hl _ rfl)
  | text type str => exact emitsLexical_orFail (hl _ rfl)
  | operator type =>
    refine .bind (P := fun _ => True) (fun s hs => ⟨?_, fun _ _ _ => trivial⟩) fun _ _ => .pure trivial
    rw [emit, emitToken]
    split
    · exact hs
    · intro u hu
      obtain hu | hu := List.mem_append.mp hu
      · exact hs u hu
      · rw [List.mem_singleton.mp hu]
        exact lexical_layout type line
  | unknown => exact fun s hs => ⟨hs, fun _ _ h => nomatch h⟩

theorem emitsLexical_tokenLoop : EmitsLexical (tokenLoop line fuel src) := by
  fun_induction tokenLoop line fuel src with
  | case1 | case3 => exact .pure trivial
  | case2 => exact .throw _
  | case4 fuel c src _ ih =>
    exact .bind (emitsLexical_emitLexeme fun t ht => .inr ⟨c, src, line, ht⟩) fun _ _ => ih

theorem emitsLexical_popIndents (stack : List Nat) : EmitsLexical (popIndents indent line stack) := by
  induction stack with
  | nil => exact .pure trivial
  | cons top stack ih =>
    exact .ite (.bind (emitsLexical_orFail (lexical_layout _ _)) fun _ _ => ih) (.pure trivial)

theorem emitsLexical_setIndent (stack : List Nat) : EmitsLexical (setIndent indent line stack) := by
  have hpush : EmitsLexical (do
      orFail (emit .indent line)
      return indent :: stack : GkM (List Nat)) :=
    .bind (emitsLexical_orFail (lexical_layout _ _)) fun _ _ => .pure trivial
  exact .ite (.ite (.bind (.throw _) fun _ (_ : True) => hpush) hpush) (emitsLexical_popIndents stack)

theorem emitsLexical_closeIndents (stack : List Nat) : EmitsLexical (closeIndents line stack) := by
  fun_induction closeIndents line stack with
  | case1 | case2 => exact .pure trivial
  | case3 _ _ _ ih => exact .bind (emitsLexical_orFail (lexical_layout _ _)) fun _ _ => ih

theorem emitsLexical_lineLoop (stack : List Nat) : EmitsLexical (lineLoop fuel line stack src) := by
  fun_induction lineLoop fuel line stack src with
  | case1 => exact .bind (emitsLexical_closeIndents _) fun _ _ => emitsLexical_orFail (lexical_layout _ _)
  | case2 => exact .throw _
  | case3 _ _ _ _ _ _ _ _ _ _ _ ih => exact ih
  | case4 _ _ _ _ _ _ _ _ _ _ ih =>
    exact .bind (emitsLexical_setIndent _) fun _ _ => .bind emitsLexical_tokenLoop fun _ _ =>
      .bind (emitsLexical_orFail (lexical_layout _ _)) fun _ _ => ih _ _

end

/-- However lexing ends, its tokens are those of lexemes and of the layout. -/
theorem gkLex_lexical (src : List UInt8) (s : Run) : ∀ t ∈ (final (gkLex src s)).tokens, Lexical t :=
  (emitsLexical_lineLoop [0] { s with tokens := [], tokPos := 0 } (by simp)).1

/-! The parser. -/

/-- The number and the text of a node are those of a token, or there are none;
the text of a string is that of a string, and every other one is a name. -/
structure Sourced (ts : List Token) (n : Node) : Prop where
  int : n.intVal = 0 ∨ n.intVal = 1 ∨ ∃ t ∈ ts, t.intVal = n.intVal
  text : n.strVal = [] ∨ ∃ t ∈ ts, t.strVal = n.strVal ∧ t.type = if n.type = .str then .str else .ident

/-- The tokens are these, and the nodes are made of them. -/
structure Drawn (ts : List Token) (m : GkState) : Prop where
  tokens_eq : m.tokens = ts
  nodes : ∀ n ∈ m.nodes, Sourced ts n

/-- `I` holds of the state, and of all before it but those in `past`. -/
structure Held (I : GkState → Prop) (past : List GkState) (s : Run) : Prop where
  now : I s.toGkState
  since : ∀ m ∈ s.past, m ∈ past ∨ I m

section
variable {I : GkState → Prop} {past : List GkState}

theorem Held.refl {s : Run} (h : I s.toGkState) : Held I s.past s := ⟨h, fun _ hm => .inl hm⟩

theorem Held.moments {s : Run} (h : Held I past s) : ∀ m ∈ s.moments, m ∈ past ∨ I m :=
  List.forall_mem_cons.mpr ⟨.inr h.now, h.since⟩

theorem held_update {f : GkState → GkState} (hf : ∀ m, I m → I (f m)) :
    Gives (Held I past) (fun _ => True) (update f) :=
  fun s hs => ⟨⟨hf s.toGkState hs.now, List.forall_mem_cons.mpr ⟨.inr hs.now, hs.since⟩⟩, fun _ _ _ => trivial⟩

end

/-- A part of the parser that draws on the tokens alone. -/
def Draws {α : Type} (ts : List Token) (past : List GkState) (p : GkM α) : Prop :=
  Gives (Held (Drawn ts) past) (fun _ => True) p

section
variable {α β : Type} {ts : List Token} {past : List GkState} {p : GkM α} {k : α → GkM β} {expr stmt : GkM Nat}
  {type : NodeType} {t : Token} {line : Nat} {v : Int} {str : List UInt8}

theorem sourced_int (hv : v = 0 ∨ v = 1 ∨ ∃ t ∈ ts, t.intVal = v) :
    Sourced ts ⟨type, line, v, [], .int, []⟩ := ⟨hv, .inl rfl⟩

theorem sourced_text (hstr : str = [] ∨ ∃ t ∈ ts, t.strVal = str ∧
    t.type = if type = .str then .str else .ident) :
    Sourced ts ⟨type, line, 0, str, .int, []⟩ := ⟨.inl rfl, hstr⟩

theorem Sourced.change {n : Node} (h : Sourced ts n) (op : TokenType) (kids : List Nat) :
    Sourced ts { n with op := op, children := kids } := ⟨h.int, h.text⟩

theorem sourced_name (ht : t ∈ ts ∨ t = eofToken) (hident : t.type = .ident) (hne : type ≠ .str) :
    Sourced ts ⟨type, line, 0, t.strVal, .int, []⟩ := by
  obtain ht | rfl := ht
  · exact sourced_text (.inr ⟨t, ht, rfl, by rw [if_neg hne, hident]⟩)
  · cases hident

theorem Draws.bind (hp : Draws ts past p) (hk : ∀ a, Draws ts past (k a)) : Draws ts past (p >>= k) :=
  Gives.bind hp fun a _ => hk a

protected theorem Draws.pure (a : α) : Draws ts past (pure a) := Gives.pure trivial

theorem Draws.throw (e : Stop) : Draws ts past (throw e : GkM α) := Gives.throw e

theorem Draws.fail (e : GkError) : Draws ts past (fail e : GkM α) :=
  fun _ hs => ⟨⟨⟨hs.now.tokens_eq, hs.now.nodes⟩, hs.since⟩, fun _ _ h => nomatch h⟩

theorem Draws.ite {c : Prop} [Decidable c] {q : GkM α} (hp : Draws ts past p) (hq : Draws ts past q) :
    Draws ts past (if c then p else q) := Gives.ite hp hq

/-- Behind a check that may fail it is known that it did not. -/
theorem Draws.guard {c : Prop} [Decidable c] {e : GkError} {jp : Unit → GkM α}
    (h : ¬ c → Draws ts past (jp ())) :
    Draws ts past (if c then Gk.fail e >>= jp else jp ()) := by
  split
  · exact Gives.bind (P := fun _ => False) (fun s hs => ⟨(Draws.fail e s hs).1, fun _ _ h => nomatch h⟩)
      fun _ h => h.elim
  · next hc => exact h hc

theorem draws_get : Draws ts past (get : GkM Run) := fun _ hs => ⟨hs, fun _ _ _ => trivial⟩

/-- The only way for a number or a text into the parser. -/
theorem gives_peek : Gives (Held (Drawn ts) past) (fun t : Token => t ∈ ts ∨ t = eofToken) peek := by
  refine fun s hs => ⟨hs, fun t s' h => ?_⟩
  cases h
  rw [List.getD_eq_getElem?_getD]
  cases hget : s.tokens[s.tokPos]? with
  | none => exact .inr rfl
  | some t => exact .inl (hs.now.tokens_eq ▸ List.mem_of_getElem? hget)

theorem draws_peek : Draws ts past peek := fun s hs => ⟨(gives_peek s hs).1, fun _ _ _ => trivial⟩

theorem draws_check (t : TokenType) : Draws ts past (check t) := draws_peek.bind fun _ => .pure _

theorem draws_advance : Draws ts past advance :=
  draws_peek.bind fun _ =>
    .ite (fun _ hs => ⟨⟨⟨hs.now.tokens_eq, hs.now.nodes⟩, hs.since⟩, fun _ _ _ => trivial⟩) (.pure _)

theorem draws_matchToken (t : TokenType) : Draws ts past (matchToken t) :=
  (draws_check t).bind fun _ => .ite (draws_advance.bind fun _ => .pure _) (.pure _)

theorem draws_expect (t : TokenType) (e : GkError) : Draws ts past (expect t e) :=
  (draws_matchToken t).bind fun _ => .ite (.fail e) (.pure _)

theorem draws_skipNewlines : Draws ts past skipNewlines :=
  fun _ hs => ⟨⟨⟨hs.now.tokens_eq, hs.now.nodes⟩, hs.since⟩, fun _ _ _ => trivial⟩

theorem draws_nodes {f : List Node → List Node} (hf : ∀ l, (∀ n ∈ l, Sourced ts n) → ∀ n ∈ f l, Sourced ts n) :
    Draws ts past (update fun s => { s with nodes := f s.nodes }) :=
  held_update fun m hm => ⟨hm.tokens_eq, hf m.nodes hm.nodes⟩

theorem draws_setNode (n : Nat) {f : Node → Node} (hf : ∀ x, Sourced ts x → Sourced ts (f x)) :
    Draws ts past (setNode n f) := by
  refine draws_nodes (f := fun l => l.modify n f) fun l hl x hx => ?_
  obtain ⟨i, hi⟩ := List.mem_iff_getElem?.mp hx
  rw [List.getElem?_modify] at hi
  obtain ⟨y, hy, rfl⟩ := Option.map_eq_some_iff.mp hi
  have hsourced := hl y (List.mem_of_getElem? hy)
  split
  · exact hf y hsourced
  · exact hsourced

theorem draws_setChildren (n : Nat) (kids : List Nat) :
    Draws ts past (setNode n fun x => { x with children := kids }) :=
  draws_setNode n fun x h => h.change x.op kids

theorem draws_newNode (type : NodeType) (line : Nat) : Draws ts past (newNode type line) := by
  have hadd : Draws ts past (update fun s => { s with nodes := s.nodes ++ [⟨type, line, 0, [], .int, []⟩] }) :=
    draws_nodes (f := fun l => l ++ [⟨type, line, 0, [], .int, []⟩]) fun l hl =>
      List.forall_mem_append.mpr ⟨hl, List.forall_mem_singleton.mpr (sourced_int (.inl rfl))⟩
  exact draws_get.bind fun _ => .guard fun _ => hadd.bind fun _ => .pure _

/-- What counts is the node when it is filled. -/
theorem draws_leaf (h : Sourced ts ⟨type, line, v, str, .int, []⟩) : Draws ts past (leaf type line v str) := by
  intro s hs
  have hnew : Held (Drawn ts) past (final (newNode type line s)) := (draws_newNode type line s hs).1
  by_cases hfull : maxNodes ≤ s.nodes.length
  · have hfail := newNode_full type line hfull
    rw [hfail] at hnew
    rw [leaf, bind_error hfail]
    exact ⟨hnew, fun _ _ h => by cases h⟩
  · obtain ⟨s₁, hroom, hg⟩ := newNode_room type line (Nat.lt_of_not_le hfull)
    obtain ⟨s₂, hset, hg₂⟩ := setNode_grown (f := fun x => { x with intVal := v, strVal := str }) hg
    rw [hroom] at hnew
    rw [leaf, bind_ok hroom, bind_ok hset, pure_apply]
    have hpast : s₂.past = s₁.toGkState :: s₁.past := by
      cases hset
      rfl
    refine ⟨⟨⟨hg₂.tokens.trans hs.now.tokens_eq, ?_⟩, ?_⟩, fun _ _ _ => trivial⟩
    · rw [final_ok, hg₂.nodes]
      exact List.forall_mem_append.mpr ⟨hs.now.nodes, List.forall_mem_singleton.mpr h⟩
    · rw [final_ok, hpast]
      exact List.forall_mem_cons.mpr ⟨.inr hnew.now, hnew.since⟩

theorem draws_operatorNode (type : NodeType) (t : Token) (kids : List Nat) :
    Draws ts past (operatorNode type t kids) :=
  (draws_newNode type t.line).bind fun n =>
    (draws_setNode n (f := fun x => { x with op := t.type, children := kids }) fun _ h =>
      h.change t.type kids).bind fun _ => .pure _

theorem draws_addChild (n c : Nat) : Draws ts past (addChild n c) :=
  draws_get.bind fun _ => .ite (draws_setNode n fun x h => h.change x.op (x.children ++ [c])) (.throw _)

theorem draws_addChecked (n c : Nat) (e : GkError) : Draws ts past (addChecked n c e) :=
  draws_get.bind fun _ => .guard fun _ => draws_addChild n c

theorem draws_argLoop (he : Draws ts past expr) (n fuel : Nat) : Draws ts past (argLoop expr n fuel) := by
  induction fuel with
  | zero => exact .throw _
  | succ fuel ih =>
    exact (draws_check _).bind fun _ => (draws_check _).bind fun _ => .ite
      (he.bind fun _ => (draws_addChecked _ _ _).bind fun _ => (draws_matchToken _).bind fun _ =>
        .ite ih (.pure _))
      (.pure _)

theorem callType_ne_str (name : List UInt8) : callType name ≠ .str := by
  unfold callType
  repeat' split
  all_goals decide

theorem draws_parsePrimary (he : Draws ts past expr) (fuel : Nat) : Draws ts past (parsePrimary fuel expr) := by
  refine Gives.bind gives_peek fun t ht => ?_
  have hleaf : ∀ {type v str}, Sourced ts ⟨type, t.line, v, str, .int, []⟩ →
      Draws ts past (do advance; leaf type t.line v str) := fun h => draws_advance.bind fun _ => draws_leaf h
  have htoken : t.type ≠ .eof → t ∈ ts := by
    intro hne
    obtain ht | rfl := ht
    · exact ht
    · exact absurd rfl hne
  cases htype : t.type with
  | int => exact hleaf (sourced_int (.inr (.inr ⟨t, htoken (by rw [htype]; decide), rfl⟩)))
  | str => exact hleaf (sourced_text (.inr ⟨t, htoken (by rw [htype]; decide), rfl, htype⟩))
  | kwTrue => exact hleaf (sourced_int (.inr (.inl rfl)))
  | kwFalse => exact hleaf (sourced_int (.inl rfl))
  | ident =>
    exact draws_advance.bind fun _ => (draws_check _).bind fun _ => .ite
      (draws_advance.bind fun _ => (draws_leaf (sourced_name ht htype (callType_ne_str _))).bind fun n =>
        (draws_argLoop he n fuel).bind fun _ => (draws_expect _ _).bind fun _ => .pure _)
      (draws_leaf (sourced_name ht htype (by decide)))
  | lparen => exact draws_advance.bind fun _ => he.bind fun _ => (draws_expect _ _).bind fun _ => .pure _
  | _ => exact Draws.fail _

theorem draws_parseUnary (hp : Draws ts past expr) (fuel : Nat) : Draws ts past (parseUnary expr fuel) := by
  induction fuel with
  | zero => exact .throw _
  | succ fuel ih =>
    exact draws_peek.bind fun _ =>
      .ite (draws_advance.bind fun _ => ih.bind fun _ => draws_operatorNode _ _ _) hp

theorem draws_binaryLoop (ops : List TokenType) (hp : Draws ts past expr) (fuel left : Nat) :
    Draws ts past (binaryLoop ops expr fuel left) := by
  induction fuel generalizing left with
  | zero => exact .throw _
  | succ fuel ih =>
    exact draws_peek.bind fun _ => .ite
      (draws_advance.bind fun _ => hp.bind fun _ => (draws_operatorNode _ _ _).bind fun n => ih n) (.pure _)

theorem draws_parseBinary (ops : List TokenType) (fuel : Nat) (hp : Draws ts past expr) :
    Draws ts past (parseBinary ops fuel expr) := hp.bind fun left => draws_binaryLoop ops hp fuel left

theorem draws_parseExpr (fuel : Nat) : Draws ts past (parseExpr fuel) := by
  induction fuel with
  | zero => exact .throw _
  | succ fuel ih =>
    exact draws_parseBinary _ _ <| draws_parseBinary _ _ <| draws_parseBinary _ _ <| draws_parseBinary _ _ <|
      draws_parseBinary _ _ <| draws_parseUnary (draws_parsePrimary ih fuel) fuel

theorem draws_stmtLoop (hs : Draws ts past stmt) (ends : List TokenType) (e : GkError) (n fuel : Nat) :
    Draws ts past (stmtLoop stmt ends e n fuel) := by
  induction fuel with
  | zero => exact .throw _
  | succ fuel ih =>
    exact draws_peek.bind fun _ => .ite
      (hs.bind fun _ => (draws_addChecked _ _ _).bind fun _ => draws_skipNewlines.bind fun _ => ih) (.pure _)

theorem draws_parseBlock (hs : Draws ts past stmt) (fuel : Nat) : Draws ts past (parseBlock fuel stmt) :=
  draws_peek.bind fun _ => (draws_expect _ _).bind fun _ => (draws_newNode _ _).bind fun _ =>
    draws_skipNewlines.bind fun _ => (draws_stmtLoop hs _ _ _ _).bind fun _ =>
      (draws_matchToken _).bind fun _ => .pure _

theorem draws_parseReturn (he : Draws ts past expr) : Draws ts past (parseReturn expr) := by
  have hend : ∀ n, Draws ts past (do let _ ← matchToken .newline; return n : GkM Nat) := fun n =>
    (draws_matchToken _).bind fun _ => .pure n
  exact draws_peek.bind fun _ => draws_advance.bind fun _ => (draws_newNode _ _).bind fun n =>
    (draws_check _).bind fun _ => (draws_check _).bind fun _ => .ite
      (he.bind fun _ => (draws_setChildren _ _).bind fun _ => hend n) (hend n)

theorem draws_parseJump (type : NodeType) : Draws ts past (parseJump type) :=
  draws_peek.bind fun _ => draws_advance.bind fun _ => (draws_matchToken _).bind fun _ => draws_newNode _ _

theorem draws_paramLoop (n fuel : Nat) : Draws ts past (paramLoop n fuel) := by
  induction fuel with
  | zero => exact .throw _
  | succ fuel ih =>
    exact (draws_check _).bind fun _ => (draws_check _).bind fun _ => .ite
      (Gives.bind gives_peek fun t ht => Draws.guard fun hident => draws_advance.bind fun _ =>
        (draws_leaf (sourced_name ht (Decidable.not_not.mp hident) (by decide))).bind fun _ =>
        (draws_addChild _ _).bind fun _ =>
          (draws_matchToken _).bind fun _ => .ite ih (.pure _))
      (.pure _)

theorem draws_parseDef (hs : Draws ts past stmt) (fuel : Nat) : Draws ts past (parseDef fuel stmt) :=
  draws_peek.bind fun _ => draws_advance.bind fun _ => Gives.bind gives_peek fun t ht =>
    Draws.guard fun hident =>
    draws_advance.bind fun _ =>
      (draws_leaf (sourced_name ht (Decidable.not_not.mp hident) (by decide))).bind fun n =>
    (draws_expect _ _).bind fun _ => (draws_paramLoop n fuel).bind fun _ => (draws_expect _ _).bind fun _ =>
    (draws_expect _ _).bind fun _ => (draws_matchToken _).bind fun _ => (draws_parseBlock hs fuel).bind fun _ =>
    (draws_addChild _ _).bind fun _ => .pure _

theorem draws_parseHeader (he : Draws ts past expr) (hs : Draws ts past stmt) (fuel : Nat) (e : GkError) :
    Draws ts past (parseHeader fuel expr stmt e) :=
  he.bind fun _ => (draws_expect _ _).bind fun _ => (draws_matchToken _).bind fun _ =>
    (draws_parseBlock hs fuel).bind fun _ => .pure _

theorem draws_parseIf (he : Draws ts past expr) (hs : Draws ts past stmt) (fuel : Nat) :
    Draws ts past (parseIf fuel expr stmt) := by
  refine draws_peek.bind fun _ => draws_advance.bind fun _ => (draws_newNode _ _).bind fun n =>
    (draws_parseHeader he hs fuel _).bind fun _ => (draws_setChildren _ _).bind fun _ =>
    draws_skipNewlines.bind fun _ => (draws_check _).bind fun _ =>
      .ite ?_ ((draws_check _).bind fun _ => .ite ?_ (.pure _))
  · exact hs.bind fun _ => (draws_setChildren _ _).bind fun _ => .pure _
  · exact draws_advance.bind fun _ => (draws_expect _ _).bind fun _ => (draws_matchToken _).bind fun _ =>
      (draws_parseBlock hs fuel).bind fun _ => (draws_setChildren _ _).bind fun _ => .pure _

theorem draws_parseWhile (he : Draws ts past expr) (hs : Draws ts past stmt) (fuel : Nat) :
    Draws ts past (parseWhile fuel expr stmt) :=
  draws_peek.bind fun _ => draws_advance.bind fun _ => (draws_newNode _ _).bind fun _ =>
    (draws_parseHeader he hs fuel _).bind fun _ => (draws_setChildren _ _).bind fun _ => .pure _

theorem draws_parseFor (he : Draws ts past expr) (hs : Draws ts past stmt) (fuel : Nat) :
    Draws ts past (parseFor fuel expr stmt) :=
  draws_peek.bind fun _ => draws_advance.bind fun _ => Gives.bind gives_peek fun t ht =>
    Draws.guard fun hident =>
    draws_advance.bind fun _ => (draws_expect _ _).bind fun _ =>
    (draws_leaf (sourced_name ht (Decidable.not_not.mp hident) (by decide))).bind fun _ =>
    (draws_parseHeader he hs fuel _).bind fun _ => (draws_setChildren _ _).bind fun _ => .pure _

/-- An assignment is only read where a name stands. -/
theorem held_parseAssign {s : Run} (he : Draws ts past expr) (hident : s.current.type = .ident)
    (hs : Held (Drawn ts) past s) :
    Held (Drawn ts) past (final (parseAssign expr s)) := by
  have ht : s.current ∈ ts ∨ s.current = eofToken := (gives_peek s hs).2 _ _ (peek_apply s)
  rw [parseAssign, bind_ok (peek_apply s)]
  have hrest : Draws ts past (do
      advance
      advance
      let n ← leaf .assign s.current.line 0 s.current.strVal
      let e ← expr
      setNode n fun x => { x with children := [e] }
      let _ ← matchToken .newline
      return n : GkM Nat) :=
    draws_advance.bind fun _ => draws_advance.bind fun _ =>
      (draws_leaf (sourced_name ht hident (by decide))).bind fun _ =>
      he.bind fun _ => (draws_setChildren _ _).bind fun _ => (draws_matchToken _).bind fun _ => .pure _
  exact (hrest s hs).1

theorem draws_parseExprStmt (he : Draws ts past expr) : Draws ts past (parseExprStmt expr) :=
  he.bind fun _ => (draws_matchToken _).bind fun _ => .pure _

theorem draws_parseStmt (fuel : Nat) : Draws ts past (parseStmt fuel) := by
  induction fuel with
  | zero => exact .throw _
  | succ fuel ih =>
    intro s hs
    have he : Draws ts past (parseExpr fuel) := draws_parseExpr fuel
    rw [parseStmt, bind_ok (peek_apply s)]
    cases htype : s.current.type with
    | kwReturn => exact draws_parseReturn he s hs
    | kwBreak | kwContinue => exact draws_parseJump _ s hs
    | kwDef => exact draws_parseDef ih fuel s hs
    | kwIf | kwElif => exact draws_parseIf he ih fuel s hs
    | kwWhile => exact draws_parseWhile he ih fuel s hs
    | kwFor => exact draws_parseFor he ih fuel s hs
    | ident =>
      have hfollows : ∃ b, assignFollows s = .ok b s := ⟨_, rfl⟩
      obtain ⟨b, hb⟩ := hfollows
      simp only
      rw [bind_ok hb]
      cases b with
      | true => exact ⟨held_parseAssign he htype hs, fun _ _ _ => trivial⟩
      | false => exact draws_parseExprStmt he s hs
    | _ => exact draws_parseExprStmt he s hs

end

/-- However parsing ends, in every state the nodes are made of the tokens. -/
theorem gkParse_drawn (s : Run) : Held (Drawn s.tokens) (s.toGkState :: s.past) (final (gkParse s)) := by
  have hloop : Draws s.tokens s.cleared.past (do
      let root ← newNode .block 0
      skipNewlines
      stmtLoop (parseStmt (s.tokens.length + 2)) [.eof] .tooManyStatements root (s.tokens.length + 2)
      return root : GkM Nat) :=
    (draws_newNode _ _).bind fun _ => draws_skipNewlines.bind fun _ =>
      (draws_stmtLoop (draws_parseStmt _) _ _ _ _).bind fun _ => .pure _
  rw [gkParse_eq]
  exact (hloop s.cleared (.refl ⟨rfl, by simp [Run.cleared]⟩)).1

end GeckoOS.Gk
