import GeckoOS.Gk.Printer
import GeckoOS.Gk.ParserTrees

/-! The parser reads back whole programs that are printed as tokens. -/
namespace GeckoOS.Gk
open Lib

/-! ### Readings -/

/-- `k` tokens are read from `s` on, and these trees are what is added to the arena. -/
structure Took (s : Run) (k : Nat) (trees : List (Lib.Tree Label)) (size : Nat) (roots : List Nat)
  (s' : Run) : Prop where
  grows : ∃ new, Grows k new s s'
  length : s'.nodes.length = s.nodes.length + size
  laid : Laid (cell s'.nodes) s.nodes.length trees roots s'.nodes.length

variable {s s' s'' : Run} {k k' n n' size size' fuel : Nat} {trees trees' : List (Lib.Tree Label)}
  {roots roots' : List Nat} {label : Label} {t : Token} {ts ts' rest : List Token}
  {e : Expr} {st body els : Stmt} {sts : List Stmt} {x : GkError}

namespace Took

theorem forward (s : Run) (k : Nat) : Took s k [] 0 [] (s.forward k) := ⟨⟨[], .forward s k⟩, rfl, .nil _⟩

theorem append (h : Took s k trees size roots s') (h' : Took s' k' trees' size' roots' s'') :
    Took s (k + k') (trees ++ trees') (size + size') (roots ++ roots') s'' := by
  obtain ⟨new, hg⟩ := h.grows
  obtain ⟨new', hg'⟩ := h'.grows
  refine ⟨⟨_, hg.trans hg'⟩, ?_, (hg'.laid h.laid (Nat.le_refl _)).append h'.laid⟩
  rw [h'.length, h.length, Nat.add_assoc]

theorem ahead (h : Took s k trees size roots s') : s'.ahead = s.ahead.drop k := by
  obtain ⟨new, hg⟩ := h.grows
  exact hg.ahead

theorem ahead_of (h : Took s ts.length trees size roots s') (hs : s.ahead = ts ++ rest) : s'.ahead = rest := by
  rw [h.ahead, hs, List.drop_left]

end Took

theorem Open.took (h : Open s k label trees s') (hlen : s'.nodes.length = s.nodes.length + (size + 1)) :
    Took s k [.node label trees] (size + 1) [s.nodes.length] s' := ⟨h.grows, hlen, h.close⟩

theorem Behind.took (h : Behind s k label trees roots s') (ht : Took s' k' trees' size roots' s'') :
    Behind s (k + k') label (trees ++ trees') (roots ++ roots') s'' := by
  obtain ⟨new, hg⟩ := ht.grows
  exact h.append hg ht.laid

/-- The trees behind a node become its children. -/
theorem Behind.finish (h : Behind s k label trees roots s')
    (hlen : s'.nodes.length = s.nodes.length + (size + 1)) :
    ∃ s'', setNode s.nodes.length (fun x => { x with children := roots }) s' = .ok () s'' ∧
      Behind s k label trees roots s'' ∧ Took s k [.node label trees] (size + 1) [s.nodes.length] s'' := by
  obtain ⟨s'', hset⟩ : ∃ s'',
    setNode s.nodes.length (fun x => { x with children := roots }) s' = .ok () s'' := ⟨_, rfl⟩
  obtain ⟨hbehind, hopen⟩ := h.set hset
  refine ⟨s'', hset, hbehind, hopen.took ?_⟩
  rw [← hlen]
  cases hset
  exact List.length_modify ..

theorem ahead_next (h : s.ahead = t :: rest) : s.current = t ∧ (s.forward 1).ahead = rest := by
  refine ⟨current_of_ahead h, ?_⟩
  rw [ahead_forward, h]
  rfl

/-- A token that has to be there. -/
theorem expect_next {ty : TokenType} (h : s.ahead = t :: rest) (ht : t.type = ty) (hne : ty ≠ .eof)
    (x : GkError) :
    expect ty x s = .ok () (s.forward 1) := expect_hit (by rw [(ahead_next h).1, ht]) hne x

theorem matchToken_next {ty : TokenType} (h : s.ahead = t :: rest) (ht : t.type = ty) (hne : ty ≠ .eof) :
    matchToken ty s = .ok true (s.forward 1) := matchToken_hit (by rw [(ahead_next h).1, ht]) hne

theorem advance_next (h : s.ahead = t :: rest) (hne : t.type ≠ .eof) : advance s = .ok () (s.forward 1) :=
  advance_apply (by rwa [(ahead_next h).1])

theorem skipNewlines_none (h : s.current.type ≠ .newline) : skipNewlines s = .ok () s := by
  have hskip : s.skipLines = s := by
    unfold Run.skipLines
    cases ha : s.ahead with
    | nil => rfl
    | cons t ts =>
      rw [current_of_ahead ha] at h
      rw [List.takeWhile_cons_of_neg (by simpa using h)]
      rfl
  rw [skipNewlines_apply, hskip]

/-! ### Statements -/

theorem Expr.reads (he : e.CallsFit) (hts : ts.map Token.shape = e.print 5) (hs : s.ahead = ts ++ rest)
    (hrest : continuesExpr (rest.headD eofToken).type = false) (hroom : s.nodes.length + e.size ≤ maxNodes)
    (hf : ts.length < fuel) :
    ∃ n s', parseExpr fuel s = .ok n s' ∧ Took s ts.length [e.toTree] e.size [n] s' := by
  obtain ⟨n, s', new, hrun, hg, hlen, hl⟩ := parseExpr_reads he hts hs hrest hroom hf
  exact ⟨n, s', hrun, ⟨new, hg⟩, by rw [hg.length, hlen], hl⟩

/-- A block behind the end of its header. -/
def parseSuite (fuel : Nat) (x : GkError) : GkM Nat := do
  expect .colon x
  let _ ← matchToken .newline
  parseBlock fuel (parseStmt fuel)

def Stmt.parser (fuel : Nat) (x : GkError) : Stmt → GkM Nat
  | .block _ => parseSuite fuel x
  | _ => parseStmt fuel

theorem parser_stmt (h : st.isBlock = false) : st.parser fuel x = parseStmt fuel := by
  cases st with
  | block => cases h
  | _ => rfl

/-- The tokens of `st` stand at the cursor, with room for its nodes, and no branch follows it. -/
structure Stands (st : Stmt) (fuel : Nat) (s : Run) (ts rest : List Token) : Prop where
  shape : ∃ word ∈ [TokenType.kwIf, .kwElif], ts.map Token.shape = st.print word
  ahead : s.ahead = ts ++ rest
  alone : st.isBlock = true ∨ (rest.headD eofToken).type ∈ stmtEnds
  fuel_lt : ts.length < fuel
  room : s.nodes.length + st.size ≤ maxNodes

def Stmt.Reads (st : Stmt) : Prop := ∀ fuel x s ts rest, Stands st fuel s ts rest →
  ∃ n s', st.parser fuel x s = .ok n s' ∧ Took s ts.length [st.toTree] st.size [n] s'

theorem stmtLoop_reads {ends : List TokenType} (hends : ∀ ty ∈ ends, ty ∈ [TokenType.dedent, .eof])
    (hfit : allFit sts)
    (hreads : ∀ st ∈ sts, st.Reads) :
    ∀ {b k : Nat} {s₀ s : Run} {trees : List (Lib.Tree Label)} {ts : List Token}, Open s₀ k label trees s →
      ts.map Token.shape = printAll sts → s.ahead = ts ++ rest → (rest.headD eofToken).type ∈ ends →
      ts.length < fuel → ts.length < b → trees.length + sts.length ≤ maxChildren →
      s.nodes.length + sizeAll sts ≤ maxNodes →
      ∃ s', stmtLoop (parseStmt fuel) ends x s₀.nodes.length b s = .ok () s' ∧
        Open s₀ (k + ts.length) label (trees ++ stmtTrees sts) s' ∧
          s'.nodes.length = s.nodes.length + sizeAll sts := by
  induction sts with
  | nil =>
    intro b k s₀ s trees ts ho hts hs hrest _ hb _ _
    obtain rfl := List.map_eq_nil_iff.mp hts
    obtain ⟨b, rfl⟩ := Nat.exists_eq_succ_of_ne_zero (Nat.ne_of_gt hb)
    have hcur : s.current.type ∈ ends := by
      rw [current_headD, hs]
      exact hrest
    refine ⟨s, ?_, by simpa [stmtTrees] using ho, rfl⟩
    rw [stmtLoop, bind_ok (peek_apply s), if_neg (not_not_intro hcur)]
    rfl
  | cons st sts ih =>
    intro b k s₀ s trees ts ho hts hs hrest hf hb hc hn
    obtain ⟨⟨hst, hstfit⟩, hfit'⟩ := hfit
    obtain ⟨hread, hreads'⟩ := List.forall_mem_cons.mp hreads
    obtain ⟨b, rfl⟩ : ∃ b', b = b' + 1 := ⟨b - 1, by omega⟩
    rw [printAll] at hts
    obtain ⟨tst, tr, rfl, htst, htr⟩ := List.map_eq_append_iff.mp hts
    have hnext := printAll_starts hfit' htr (hends _ hrest)
    rw [List.append_assoc] at hs
    rw [List.length_append] at hf hb
    rw [List.length_cons] at hc
    rw [sizeAll] at hn
    -- the first token of the statement does not end the loop
    obtain ⟨sh, shs, hprint, hmem⟩ := st.print_starts hst
    obtain ⟨t, tst', rfl, ht, -⟩ := List.map_eq_cons_iff.mp (htst.trans hprint)
    have hcur : s.current = t := current_of_ahead hs
    have hstart : s.current.type ∉ ends := by
      intro hend
      rw [hcur, ← shape_type, ht] at hend
      have hdisjoint : ∀ ty ∈ stmtStarts, ty ∉ [TokenType.dedent, .eof] := by decide
      exact hdisjoint _ hmem (hends _ hend)
    obtain ⟨n, s₁, hrun, htook⟩ := hread fuel x s _ (tr ++ rest)
      ⟨⟨.kwIf, by simp, htst⟩, hs, .inr hnext, by omega, by omega⟩
    rw [parser_stmt hst] at hrun
    obtain ⟨new, hg⟩ := htook.grows
    obtain ⟨s₂, hadd, hopen, hlen⟩ := ho.addChecked_room hg htook.laid (by omega) x
    have hahead : s₂.ahead = tr ++ rest := by
      rw [hopen.ahead, ← List.drop_drop, ← ho.ahead, hs, List.drop_left]
    have hskip : skipNewlines s₂ = .ok () s₂ := by
      refine skipNewlines_none fun hnl => ?_
      rw [current_headD, hahead] at hnl
      rw [hnl] at hnext
      exact absurd hnext (by decide)
    have hb' : tr.length < b := by
      rw [List.length_cons] at hb
      omega
    obtain ⟨s', hloop, hopen', hlen'⟩ := ih hfit' hreads' hopen htr hahead hrest (by omega) hb'
      (by rw [List.length_append, List.length_singleton]; omega) (by rw [hlen, htook.length]; omega)
    refine ⟨s', ?_, ?_, ?_⟩
    · rw [stmtLoop, bind_ok (peek_apply s), if_pos hstart, bind_ok hrun, bind_ok hadd, bind_ok hskip]
      exact hloop
    · rw [List.length_append, ← Nat.add_assoc]
      simpa [stmtTrees] using hopen'
    · rw [hlen', hlen, htook.length, sizeAll, Nat.add_assoc]

theorem block_reads (hcount : sts.length ≤ maxChildren) (hfit : allFit sts) (hreads : ∀ st ∈ sts, st.Reads) :
    (Stmt.block sts).Reads := by
  intro fuel x s ts rest h
  obtain ⟨word, -, hshape⟩ := h.shape
  have hs := h.ahead
  have hf := h.fuel_lt
  have hroom := h.room
  rw [Stmt.print] at hshape
  rw [Stmt.size] at hroom
  obtain ⟨t₁, ts₁, rfl, hcolon, hshape⟩ := List.map_eq_cons_iff.mp hshape
  obtain ⟨t₂, ts₂, rfl, hnewline, hshape⟩ := List.map_eq_cons_iff.mp hshape
  obtain ⟨t₃, ts₃, rfl, hindent, hshape⟩ := List.map_eq_cons_iff.mp hshape
  obtain ⟨tb, ts₄, rfl, hbody, hshape⟩ := List.map_eq_append_iff.mp hshape
  obtain ⟨t₄, ts₅, rfl, hdedent, hshape⟩ := List.map_eq_cons_iff.mp hshape
  obtain rfl := List.map_eq_nil_iff.mp hshape
  simp only [List.length_cons, List.length_append, List.length_nil] at hf
  have ha₀ : s.ahead = t₁ :: t₂ :: t₃ :: (tb ++ t₄ :: rest) := by simp [hs]
  have ha₁ : (s.forward 1).ahead = t₂ :: t₃ :: (tb ++ t₄ :: rest) := (ahead_next ha₀).2
  have ha₂ : (s.forward 2).ahead = t₃ :: (tb ++ t₄ :: rest) := (ahead_next ha₁).2
  have ha₃ : (s.forward 3).ahead = tb ++ t₄ :: rest := (ahead_next ha₂).2
  have hend : ((t₄ :: rest).headD eofToken).type ∈ [TokenType.dedent, .eof] := by
    rw [List.headD_cons, type_of_shape hdedent]
    decide
  -- the node of the block, and its statements
  obtain ⟨s₄, hnew, hg⟩ := newNode_room (s := s.forward 3) .block t₃.line (by rw [forward_nodes]; omega)
  have hopen : Open s 3 (.plain .block) [] s₄ := Open.single ((Grows.forward s 3).trans hg) rfl
  have ha₄ : s₄.ahead = tb ++ t₄ :: rest := by rw [hg.ahead, ha₃, List.drop_zero]
  have hskip : skipNewlines s₄ = .ok () s₄ := by
    refine skipNewlines_none fun hnl => ?_
    have hstart := printAll_starts hfit hbody hend
    rw [← ha₄, ← current_headD, hnl] at hstart
    exact absurd hstart (by decide)
  obtain ⟨s₅, hloop, hopen', hlen⟩ :=
    stmtLoop_reads (x := .blockTooLarge) (fun _ hty => hty) hfit hreads hopen
    hbody ha₄ hend (by omega : tb.length < fuel) (by omega : tb.length < fuel) (by simpa using hcount)
    (by rw [hg.length, forward_nodes, List.length_singleton]; omega)
  have ha₅ : s₅.ahead = t₄ :: rest := by
    rw [hopen'.ahead, ← List.drop_drop, ← hopen.ahead, ha₄, List.drop_left]
  refine ⟨s.nodes.length, s₅.forward 1, ?_, ?_⟩
  · have hcolon' := expect_next ha₀ (type_of_shape hcolon) (by decide) x
    have hnewline' : matchToken .newline (s.forward 1) = .ok true (s.forward 2) :=
      matchToken_next ha₁ (type_of_shape hnewline) (by decide)
    have hindent' := expect_next ha₂ (type_of_shape hindent) (by decide) .indentedBlock
    show parseSuite fuel x s = _
    rw [parseSuite, bind_ok hcolon', bind_ok hnewline', parseBlock, bind_ok (peek_apply _),
      bind_ok hindent', (ahead_next ha₂).1]
    exact (bind_ok hnew).trans ((bind_ok hskip).trans ((bind_ok hloop).trans
      (bind_ok (matchToken_next ha₅ (type_of_shape hdedent) (by decide)))))
  · have hk : (t₁ :: t₂ :: t₃ :: (tb ++ [t₄])).length = 3 + tb.length + 1 := by
      simp only [List.length_cons, List.length_append, List.length_nil]
      omega
    rw [hk, Stmt.toTree, Stmt.size]
    refine (hopen'.forward 1).took ?_
    rw [forward_nodes, hlen, hg.length, forward_nodes, List.length_singleton]
    omega

theorem parseHeader_suite (fuel : Nat) (x : GkError) :
    parseHeader fuel (parseExpr fuel) (parseStmt fuel) x = (do
    let cond ← parseExpr fuel
    let body ← parseSuite fuel x
    return (cond, body)) := by
  simp only [parseHeader, parseSuite, bind_assoc]

theorem suite_reads {tb : List Token} (hblock : body.isBlock) (hreads : body.Reads)
    (htb : tb.map Token.shape = body.print .kwIf)
    (hs : s.ahead = tb ++ rest) (hf : tb.length < fuel) (hroom : s.nodes.length + body.size ≤ maxNodes)
    (x : GkError) :
    ∃ b s', parseSuite fuel x s = .ok b s' ∧ Took s tb.length [body.toTree] body.size [b] s' := by
  obtain ⟨b, s', hrun, htook⟩ := hreads fuel x s tb rest ⟨⟨.kwIf, by simp, htb⟩, hs, .inl hblock, hf, hroom⟩
  cases body with
  | block => exact ⟨b, s', hrun, htook⟩
  | _ => cases hblock

/-- A condition and the block under it. -/
theorem header_reads {te tb : List Token} (he : e.CallsFit) (hblock : body.isBlock) (hreads : body.Reads)
    (hte : te.map Token.shape = e.print 5) (htb : tb.map Token.shape = body.print .kwIf)
    (hs : s.ahead = te ++ (tb ++ rest)) (hf : te.length + tb.length < fuel)
    (hroom : s.nodes.length + (e.size + body.size) ≤ maxNodes) (x : GkError) :
    ∃ c b s', parseHeader fuel (parseExpr fuel) (parseStmt fuel) x s = .ok (c, b) s' ∧
      Took s (te.length + tb.length) [e.toTree, body.toTree] (e.size + body.size) [c, b] s' := by
  have hcolon : continuesExpr ((tb ++ rest).headD eofToken).type = false := by
    cases body with
    | block sts =>
      rw [Stmt.print] at htb
      obtain ⟨t, tb', rfl, ht, -⟩ := List.map_eq_cons_iff.mp htb
      rw [List.cons_append, List.headD_cons, type_of_shape ht]
      decide
    | _ => cases hblock
  obtain ⟨c, s₁, hrun, htook⟩ := e.reads he hte hs hcolon (by omega) (by omega : te.length < fuel)
  obtain ⟨b, s₂, hrun', htook'⟩ :=
    suite_reads hblock hreads htb (htook.ahead_of hs) (by omega : tb.length < fuel)
    (by rw [htook.length]; omega) x
  exact ⟨c, b, s₂, by rw [parseHeader_suite, bind_ok hrun, bind_ok hrun']; rfl, htook.append htook'⟩

/-! The statements by their first tokens. -/

theorem parseStmt_expr (h : s.current.type ∈ exprStarts) (h' : (s.forward 1).current.type ≠ .assign) :
    parseStmt (fuel + 1) s = parseExprStmt (parseExpr fuel) s := by
  rw [parseStmt, bind_ok (peek_apply s)]
  cases ht : s.current.type <;> rw [ht] at h <;> first | rfl | exact absurd h (by decide) | skip
  obtain ⟨b, hb, hassign⟩ := assignFollows_apply s
  cases b with
  | true => exact absurd (hassign rfl) h'
  | false =>
    show (assignFollows >>= _) s = _
    rw [bind_ok hb]
    rfl

theorem parseStmt_assign (h : s.current.type = .ident) (h' : s.tokPos + 1 < s.tokens.length)
    (h'' : (s.forward 1).current.type = .assign) : parseStmt (fuel + 1) s = parseAssign (parseExpr fuel) s := by
  have hb : assignFollows s = .ok true s := by
    have heq : (decide (s.tokPos + 1 < s.tokens.length) &&
      (s.tokens.getD (s.tokPos + 1) eofToken).type == .assign) = true := by
      rw [Bool.and_eq_true, decide_eq_true_eq, beq_iff_eq]
      exact ⟨h', h''⟩
    rw [assignFollows, bind_ok (get_apply s), heq, pure_apply]
  rw [parseStmt, bind_ok (peek_apply s), h]
  show (assignFollows >>= _) s = _
  rw [bind_ok hb]
  rfl

/-- An expression to the end of its line. -/
theorem line_reads {te : List Token} (he : e.CallsFit) (hte : te.map Token.shape = e.print 5)
    (ht : t.shape = .symbol .newline)
    (hs : s.ahead = te ++ t :: rest) (hf : te.length < fuel) (hroom : s.nodes.length + e.size ≤ maxNodes) :
    ∃ n s', parseExpr fuel s = .ok n s' ∧ Took s te.length [e.toTree] e.size [n] s' ∧
      matchToken .newline s' = .ok true (s'.forward 1) := by
  have hstop : continuesExpr ((t :: rest).headD eofToken).type = false := by
    rw [List.headD_cons, type_of_shape ht]
    decide
  obtain ⟨n, s', hrun, htook⟩ := e.reads he hte hs hstop hroom hf
  exact ⟨n, s', hrun, htook, matchToken_next (htook.ahead_of hs) (type_of_shape ht) (by decide)⟩

/-- The tokens of a line. -/
theorem tokens_of_line {shapes : List Shape} (h : ts.map Token.shape = inLine shapes) :
    ∃ tl t, ts = tl ++ [t] ∧ tl.map Token.shape = shapes ∧ t.shape = .symbol .newline := by
  obtain ⟨tl, tr, rfl, htl, htr⟩ := List.map_eq_append_iff.mp h
  obtain ⟨t, tr', rfl, ht, hnil⟩ := List.map_eq_cons_iff.mp htr
  obtain rfl := List.map_eq_nil_iff.mp hnil
  exact ⟨tl, t, rfl, htl, ht⟩

theorem expr_reads (he : e.CallsFit) : (Stmt.expr e).Reads := by
  intro fuel x s ts rest h
  obtain ⟨word, -, hshape⟩ := h.shape
  have hs := h.ahead
  have hf := h.fuel_lt
  rw [Stmt.print] at hshape
  obtain ⟨te, t, rfl, hte, ht⟩ := tokens_of_line hshape
  rw [List.append_assoc, List.singleton_append] at hs
  rw [List.length_append, List.length_singleton] at hf
  obtain ⟨f, rfl⟩ : ∃ f, fuel = f + 1 := ⟨fuel - 1, by omega⟩
  obtain ⟨n, s', hrun, htook, hend⟩ := line_reads he hte ht hs (by omega : te.length < f) h.room
  refine ⟨n, s'.forward 1, ?_, ?_⟩
  · obtain ⟨sh, shs, hprint, hmem⟩ := e.print_starts 5
    obtain ⟨t₀, te', rfl, ht₀, hte'⟩ := List.map_eq_cons_iff.mp (hte.trans hprint)
    have ha : s.ahead = t₀ :: (te' ++ t :: rest) := hs
    have hstart : s.current.type ∈ exprStarts := by
      rw [(ahead_next ha).1, ← shape_type, ht₀]
      exact hmem
    have hnext : (s.forward 1).current.type ≠ .assign := by
      rw [current_headD, (ahead_next ha).2, ← shape_type]
      cases te' with
      | nil =>
        rw [List.nil_append, List.headD_cons, ht]
        decide
      | cons t₁ te' =>
        refine e.print_ne_assign 5 _ ?_
        rw [hprint, ← hte']
        simp
    show parseStmt (f + 1) s = _
    rw [parseStmt_expr hstart hnext, parseExprStmt, bind_ok hrun, bind_ok hend, pure_apply]
  · rw [List.length_append, List.length_singleton, Stmt.toTree, Stmt.size]
    simpa using htook.append (.forward s' 1)

/-- A node over what was read behind it. -/
theorem node_reads {node : Node} (hg : Grows k [node] s s') (hlabel : node.label = label)
    (htook : Took s' k' trees size roots s'') :
    ∃ s₃, setNode s.nodes.length (fun x => { x with children := roots }) s'' = .ok () s₃ ∧
      Behind s (k + k') label trees roots s₃ ∧
      Took s (k + k') [.node label trees] (size + 1) [s.nodes.length] s₃ := by
  subst hlabel
  have hlen : s''.nodes.length = s.nodes.length + (size + 1) := by
    rw [htook.length, hg.length, List.length_singleton]
    omega
  have hbehind : Behind s (k + k') node.label ([] ++ trees) ([] ++ roots) s'' := (Behind.single hg).took htook
  exact hbehind.finish hlen

theorem assign_reads {name : List UInt8} (he : e.CallsFit) : (Stmt.assign name e).Reads := by
  intro fuel x s ts rest h
  obtain ⟨word, -, hshape⟩ := h.shape
  have hs := h.ahead
  have hf := h.fuel_lt
  have hroom := h.room
  rw [Stmt.print] at hshape
  rw [Stmt.size] at hroom
  obtain ⟨tl, t, rfl, htl, ht⟩ := tokens_of_line hshape
  obtain ⟨t₁, tl', rfl, hname, htl'⟩ := List.map_eq_cons_iff.mp htl
  obtain ⟨t₂, te, rfl, hassign, hte⟩ := List.map_eq_cons_iff.mp htl'
  obtain ⟨htype, rfl⟩ := name_of_shape hname
  simp only [List.length_append, List.length_cons, List.length_nil] at hf
  obtain ⟨f, rfl⟩ : ∃ f, fuel = f + 1 := ⟨fuel - 1, by omega⟩
  have ha₀ : s.ahead = t₁ :: t₂ :: (te ++ t :: rest) := by simp [hs]
  have ha₁ : (s.forward 1).ahead = t₂ :: (te ++ t :: rest) := (ahead_next ha₀).2
  have ha₂ : (s.forward 2).ahead = te ++ t :: rest := (ahead_next ha₁).2
  obtain ⟨s₁, hleaf, hg⟩ :=
    leaf_room (s := s.forward 2) .assign t₁.line 0 t₁.strVal (by rw [forward_nodes]; omega)
  obtain ⟨n, s₂, hrun, htook, hend⟩ :=
    line_reads he hte ht (by rw [hg.ahead, ha₂, List.drop_zero] : s₁.ahead = te ++ t :: rest)
    (by omega : te.length < f) (by rw [hg.length, forward_nodes, List.length_singleton]; omega)
  obtain ⟨s₃, hset, -, htook'⟩ :=
    node_reads ((Grows.forward s 2).trans hg) (rfl : _ = Label.text .assign t₁.strVal) htook
  have hcur₃ : s₃.ahead = t :: rest := by
    rw [htook'.ahead, ← List.drop_drop, Nat.add_zero, ← ahead_forward, ha₂, List.drop_left]
  refine ⟨s.nodes.length, s₃.forward 1, ?_, ?_⟩
  · have hcur : s.current = t₁ := (ahead_next ha₀).1
    have hroom' : s.tokPos + 1 < s.tokens.length := by
      have hlen := congrArg List.length ha₀
      rw [Run.ahead, List.length_drop, List.length_cons, List.length_cons] at hlen
      omega
    have hadv₁ := advance_next ha₀ (by rw [htype]; decide)
    have hadv₂ : advance (s.forward 1) = .ok () (s.forward 2) :=
      advance_next ha₁ (by rw [type_of_shape hassign]; decide)
    show parseStmt (f + 1) s = _
    rw [parseStmt_assign (by rw [hcur, htype]) hroom' (by rw [(ahead_next ha₁).1, type_of_shape hassign]),
      parseAssign,
      bind_ok (peek_apply s), hcur, bind_ok hadv₁, bind_ok hadv₂]
    exact (bind_ok hleaf).trans ((bind_ok hrun).trans ((bind_ok hset).trans
      (bind_ok (matchToken_next hcur₃ (type_of_shape ht) (by decide)))))
  · have hk : (t₁ :: t₂ :: te ++ [t]).length = 2 + 0 + te.length + 1 := by
      simp only [List.length_append, List.length_cons, List.length_nil]
      omega
    rw [hk, Stmt.toTree, Stmt.size]
    simpa using htook'.append (.forward s₃ 1)

theorem retNone_reads : (Stmt.ret none).Reads := by
  intro fuel x s ts rest h
  obtain ⟨word, -, hshape⟩ := h.shape
  have hs := h.ahead
  have hf := h.fuel_lt
  have hroom := h.room
  rw [Stmt.print] at hshape
  rw [Stmt.size] at hroom
  obtain ⟨tl, t, rfl, htl, ht⟩ := tokens_of_line hshape
  obtain ⟨t₁, tl', rfl, hret, hnil⟩ := List.map_eq_cons_iff.mp htl
  obtain rfl := List.map_eq_nil_iff.mp hnil
  obtain ⟨f, rfl⟩ : ∃ f, fuel = f + 1 := ⟨fuel - 1, by omega⟩
  have ha₀ : s.ahead = t₁ :: t :: rest := by simp [hs]
  have ha₁ : (s.forward 1).ahead = t :: rest := (ahead_next ha₀).2
  have htype := type_of_shape hret
  obtain ⟨s₁, hnew, hg⟩ := newNode_room (s := s.forward 1) .returnNode t₁.line (by rw [forward_nodes]; omega)
  have ha : s₁.ahead = t :: rest := by rw [hg.ahead, ha₁, List.drop_zero]
  have hopen : Open s 1 (.plain .returnNode) [] s₁ := Open.single ((Grows.forward s 1).trans hg) rfl
  refine ⟨s.nodes.length, s₁.forward 1, ?_, ?_⟩
  · have hcur : s.current = t₁ := (ahead_next ha₀).1
    have hparse : parseStmt (f + 1) s = parseReturn (parseExpr f) s := by
      rw [parseStmt, bind_ok (peek_apply s), hcur, htype]
    have hcur₁ : s₁.current.type = .newline := by rw [(ahead_next ha).1, type_of_shape ht]
    show parseStmt (f + 1) s = _
    rw [hparse, parseReturn, bind_ok (peek_apply s), hcur, bind_ok (advance_next ha₀ (by rw [htype]; decide))]
    refine (bind_ok hnew).trans ?_
    rw [bind_ok (check_apply _ s₁), bind_ok (check_apply _ s₁), hcur₁]
    exact bind_ok (matchToken_hit hcur₁ (by decide))
  · refine (hopen.forward 1).took ?_
    rw [forward_nodes, hg.length]
    rfl

theorem ret_reads (he : e.CallsFit) : (Stmt.ret (some e)).Reads := by
  intro fuel x s ts rest h
  obtain ⟨word, -, hshape⟩ := h.shape
  have hs := h.ahead
  have hf := h.fuel_lt
  have hroom := h.room
  rw [Stmt.print] at hshape
  rw [Stmt.size] at hroom
  obtain ⟨tl, t, rfl, htl, ht⟩ := tokens_of_line hshape
  obtain ⟨t₁, te, rfl, hret, hte⟩ := List.map_eq_cons_iff.mp htl
  simp only [List.length_append, List.length_cons, List.length_nil] at hf
  obtain ⟨f, rfl⟩ : ∃ f, fuel = f + 1 := ⟨fuel - 1, by omega⟩
  have ha₀ : s.ahead = t₁ :: (te ++ t :: rest) := by simp [hs]
  have ha₁ : (s.forward 1).ahead = te ++ t :: rest := (ahead_next ha₀).2
  have htype := type_of_shape hret
  obtain ⟨s₁, hnew, hg⟩ := newNode_room (s := s.forward 1) .returnNode t₁.line (by rw [forward_nodes]; omega)
  have ha : s₁.ahead = te ++ t :: rest := by rw [hg.ahead, ha₁, List.drop_zero]
  obtain ⟨n, s₂, hrun, htook, hend⟩ := line_reads he hte ht ha (by omega : te.length < f)
    (by rw [hg.length, forward_nodes, List.length_singleton]; omega)
  obtain ⟨s₃, hset, -, htook'⟩ :=
    node_reads ((Grows.forward s 1).trans hg) (rfl : _ = Label.plain .returnNode) htook
  have ha₃ : s₃.ahead = t :: rest := by
    rw [htook'.ahead, ← List.drop_drop, Nat.add_zero, ← ahead_forward, ha₁, List.drop_left]
  refine ⟨s.nodes.length, s₃.forward 1, ?_, ?_⟩
  · have hcur : s.current = t₁ := (ahead_next ha₀).1
    have hparse : parseStmt (f + 1) s = parseReturn (parseExpr f) s := by
      rw [parseStmt, bind_ok (peek_apply s), hcur, htype]
    -- the expression keeps this from being a bare `return`
    obtain ⟨sh, shs, hprint, hmem⟩ := e.print_starts 5
    obtain ⟨t₂, te', rfl, ht₂, -⟩ := List.map_eq_cons_iff.mp (hte.trans hprint)
    have hcur₁ : s₁.current.type ∈ exprStarts := by
      rw [current_of_ahead ha, ← shape_type, ht₂]
      exact hmem
    have hmore : (!(s₁.current.type == .newline) && !(s₁.current.type == .eof)) = true := by
      revert hcur₁
      generalize s₁.current.type = ty
      revert ty
      decide
    show parseStmt (f + 1) s = _
    rw [hparse, parseReturn, bind_ok (peek_apply s), hcur, bind_ok (advance_next ha₀ (by rw [htype]; decide))]
    refine (bind_ok hnew).trans ?_
    rw [bind_ok (check_apply _ s₁), bind_ok (check_apply _ s₁), if_pos hmore]
    exact (bind_ok hrun).trans
      ((bind_ok hset).trans (bind_ok (matchToken_next ha₃ (type_of_shape ht) (by decide))))
  · have hk : (t₁ :: te ++ [t]).length = 1 + 0 + te.length + 1 := by
      simp only [List.length_append, List.length_cons, List.length_nil]
      omega
    rw [hk, Stmt.toTree, Stmt.size]
    simpa using htook'.append (.forward s₃ 1)

/-- `break` and `continue`. -/
theorem jump_reads {type : NodeType} {ty : TokenType} (hprint : st.print .kwIf = inLine [.symbol ty])
    (hprint' : st.print .kwElif = st.print .kwIf) (hblock : st.isBlock = false)
    (htree : st.toTree = .node (.plain type) [])
    (hsize : st.size = 1) (hne : ty ≠ .eof)
    (hparse : ∀ f s, s.current.type = ty → parseStmt (f + 1) s = parseJump type s) : st.Reads := by
  intro fuel x s ts rest h
  obtain ⟨word, hword, hshape⟩ := h.shape
  have hs := h.ahead
  have hf := h.fuel_lt
  have hroom := h.room
  have hshape : ts.map Token.shape = inLine [.symbol ty] := by
    obtain rfl | rfl : word = .kwIf ∨ word = .kwElif := by simpa using hword
    · rw [hshape, hprint]
    · rw [hshape, hprint', hprint]
  obtain ⟨tl, t, rfl, htl, ht⟩ := tokens_of_line hshape
  obtain ⟨t₁, tl', rfl, hjump, hnil⟩ := List.map_eq_cons_iff.mp htl
  obtain rfl := List.map_eq_nil_iff.mp hnil
  obtain ⟨f, rfl⟩ : ∃ f, fuel = f + 1 := ⟨fuel - 1, by omega⟩
  have ha₀ : s.ahead = t₁ :: t :: rest := by simp [hs]
  have hcur : s.current = t₁ := (ahead_next ha₀).1
  have htype := type_of_shape hjump
  obtain ⟨s₁, hnew, hg⟩ := newNode_room (s := s.forward 2) type t₁.line (by rw [forward_nodes]; omega)
  refine ⟨s.nodes.length, s₁, ?_, ?_⟩
  · have hadv := advance_next ha₀ (by rw [htype]; exact hne)
    have hend : matchToken .newline (s.forward 1) = .ok true (s.forward 2) :=
      matchToken_next (ahead_next ha₀).2 (type_of_shape ht) (by decide)
    rw [parser_stmt hblock, hparse f s (by rw [hcur, htype]), parseJump, bind_ok (peek_apply s), hcur,
      bind_ok hadv, bind_ok hend]
    exact hnew
  · rw [htree, hsize]
    have hopen : Open s 2 (.plain type) [] s₁ := Open.single ((Grows.forward s 2).trans hg) rfl
    exact hopen.took (by rw [hg.length]; rfl)

/-- The parameters of an open definition, up to the parenthesis behind them. -/
theorem paramLoop_reads {params : List (List UInt8)} :
    ∀ {b k : Nat} {s₀ s : Run} {trees : List (Lib.Tree Label)} {ts : List Token}, Open s₀ k label trees s →
      ts.map Token.shape = printParams params → s.ahead = ts ++ rest → (rest.headD eofToken).type = .rparen →
      ts.length < b → trees.length + params.length ≤ maxChildren → s.nodes.length + params.length ≤ maxNodes →
      ∃ s', paramLoop s₀.nodes.length b s = .ok () s' ∧
        Open s₀ (k + ts.length) label (trees ++ paramTrees params) s' ∧
        s'.nodes.length = s.nodes.length + params.length := by
  induction params with
  | nil =>
    intro b k s₀ s trees ts ho hts hs hrest hb _ _
    obtain rfl := List.map_eq_nil_iff.mp hts
    obtain ⟨b, rfl⟩ := Nat.exists_eq_succ_of_ne_zero (Nat.ne_of_gt hb)
    have hcur : s.current.type = .rparen := by
      rw [current_headD, hs]
      exact hrest
    refine ⟨s, ?_, by simpa [paramTrees] using ho, rfl⟩
    rw [paramLoop, bind_ok (check_apply _ s), bind_ok (check_apply _ s), hcur]
    rfl
  | cons p ps ih =>
    intro b k s₀ s trees ts ho hts hs hrest hb hc hn
    obtain ⟨b, rfl⟩ : ∃ b', b = b' + 1 := ⟨b - 1, by omega⟩
    -- the name, and what is printed behind it
    obtain ⟨t, tr, rfl, hname, htr⟩ : ∃ t tr, ts = t :: tr ∧ t.shape = .name p ∧
        ((ps = [] ∧ tr = []) ∨ ∃ t' tr', tr = t' :: tr' ∧ t'.type = .comma ∧
          tr'.map Token.shape = printParams ps) := by
      cases ps with
      | nil =>
        obtain ⟨t, tr, rfl, ht, hnil⟩ := List.map_eq_cons_iff.mp hts
        exact ⟨t, tr, rfl, ht, .inl ⟨rfl, List.map_eq_nil_iff.mp hnil⟩⟩
      | cons q ps =>
        obtain ⟨t, tr, rfl, ht, htr⟩ := List.map_eq_cons_iff.mp hts
        obtain ⟨t', tr', rfl, ht', htr'⟩ := List.map_eq_cons_iff.mp htr
        exact ⟨t, _, rfl, ht, .inr ⟨t', tr', rfl, type_of_shape ht', htr'⟩⟩
    obtain ⟨htype, rfl⟩ := name_of_shape hname
    rw [List.length_cons] at hb hc hn
    obtain ⟨hcur, ha₁⟩ := ahead_next hs
    obtain ⟨s₁, hleaf, hg⟩ := leaf_room (s := s.forward 1) .var t.line 0 t.strVal (by rw [forward_nodes]; omega)
    have hl : Laid (cell s₁.nodes) s.nodes.length [.node (.text .var t.strVal) []]
      [s.nodes.length] s₁.nodes.length :=
      hg.laid_post (.nil _)
    obtain ⟨s₂, hadd, hopen, hlen⟩ := ho.addChild_room ((Grows.forward s 1).trans hg) hl (by omega)
    have ha₂ : s₂.ahead = tr ++ rest := by
      rw [hopen.ahead, ← List.drop_drop, ← ho.ahead, hs]
      rfl
    have hlen₂ : s₂.nodes.length = s.nodes.length + 1 := by rw [hlen, hg.length]; rfl
    have hstep : paramLoop s₀.nodes.length (b + 1) s =
        (do if ← matchToken .comma then paramLoop s₀.nodes.length b : GkM Unit) s₂ := by
      have hmore : (!(s.current.type == .rparen) && !(s.current.type == .eof)) = true := by
        rw [hcur, htype]
        rfl
      rw [paramLoop, bind_ok (check_apply _ s), bind_ok (check_apply _ s), if_pos hmore,
        bind_ok (peek_apply s), hcur,
        if_neg (by simp [htype])]
      have hadv := advance_next hs (by rw [htype]; decide)
      exact (bind_ok hadv).trans ((bind_ok hleaf).trans (bind_ok hadd))
    obtain ⟨rfl, rfl⟩ | ⟨t', tr', rfl, ht', htr'⟩ := htr
    · have hmiss : s₂.current.type ≠ .comma := by
        rw [current_headD, ha₂, List.nil_append, hrest]
        decide
      refine ⟨s₂, by rw [hstep, bind_ok (matchToken_miss hmiss)]; rfl, ?_, hlen₂⟩
      simpa [paramTrees] using hopen
    · have ha₃ := (ahead_next ha₂).2
      rw [List.length_cons] at hb
      obtain ⟨s', hloop, hopen', hlen'⟩ := ih (hopen.forward 1) htr' ha₃ hrest (by omega : tr'.length < b)
        (by rw [List.length_append, List.length_singleton]; omega) (by rw [forward_nodes, hlen₂]; omega)
      refine ⟨s', ?_, ?_, ?_⟩
      · rw [hstep, bind_ok (matchToken_next ha₂ ht' (by decide))]
        exact hloop
      · have hk : k + (1 + 0) + 1 + tr'.length = k + (t :: t' :: tr').length := by
          rw [List.length_cons, List.length_cons]
          omega
        rw [hk] at hopen'
        simpa [paramTrees] using hopen'
      · rw [hlen', forward_nodes, hlen₂, List.length_cons]
        omega

theorem inParens_append (shapes after : List Shape) :
    inParens shapes ++ after = .symbol .lparen :: (shapes ++ .symbol .rparen :: after) := by
  simp [inParens]

theorem parseDef_suite (fuel : Nat) : parseDef fuel (parseStmt fuel) = (do
    let t ← peek
    advance
    let name ← peek
    if name.type ≠ .ident then fail .functionName
    advance
    let n ← leaf .defNode t.line 0 name.strVal
    expect .lparen .lparenAfterName
    paramLoop n fuel
    expect .rparen .rparenAfterParameters
    let body ← parseSuite fuel .colonAfterDef
    addChild n body
    return n) := by
  simp only [parseDef, parseSuite, bind_assoc]

theorem define_reads {name : List UInt8} {params : List (List UInt8)} (hcount : params.length < maxChildren)
    (hblock : body.isBlock) (hreads : body.Reads) : (Stmt.define name params body).Reads := by
  intro fuel x s ts rest h
  obtain ⟨word, -, hshape⟩ := h.shape
  have hs := h.ahead
  have hf := h.fuel_lt
  have hroom := h.room
  rw [Stmt.print, inParens_append] at hshape
  rw [Stmt.size] at hroom
  obtain ⟨t₁, ts₁, rfl, hdef, hshape⟩ := List.map_eq_cons_iff.mp hshape
  obtain ⟨t₂, ts₂, rfl, hname, hshape⟩ := List.map_eq_cons_iff.mp hshape
  obtain ⟨t₃, ts₃, rfl, hlparen, hshape⟩ := List.map_eq_cons_iff.mp hshape
  obtain ⟨tp, ts₄, rfl, hparams, hshape⟩ := List.map_eq_append_iff.mp hshape
  obtain ⟨t₄, tb, rfl, hrparen, htb⟩ := List.map_eq_cons_iff.mp hshape
  obtain ⟨htype₂, rfl⟩ := name_of_shape hname
  have htype₁ := type_of_shape hdef
  simp only [List.length_cons, List.length_append] at hf
  obtain ⟨f, rfl⟩ : ∃ f, fuel = f + 1 := ⟨fuel - 1, by omega⟩
  have ha₀ : s.ahead = t₁ :: t₂ :: t₃ :: (tp ++ t₄ :: (tb ++ rest)) := by simp [hs]
  have ha₁ : (s.forward 1).ahead = t₂ :: t₃ :: (tp ++ t₄ :: (tb ++ rest)) := (ahead_next ha₀).2
  have ha₂ : (s.forward 2).ahead = t₃ :: (tp ++ t₄ :: (tb ++ rest)) := (ahead_next ha₁).2
  -- the node of the definition, and its parameters
  obtain ⟨s₁, hleaf, hg⟩ :=
    leaf_room (s := s.forward 2) .defNode t₁.line 0 t₂.strVal (by rw [forward_nodes]; omega)
  have hopen : Open s 2 (.text .defNode t₂.strVal) [] s₁ := Open.single ((Grows.forward s 2).trans hg) rfl
  have hlen₁ : s₁.nodes.length = s.nodes.length + 1 := by rw [hg.length]; rfl
  have ha₃ : s₁.ahead = t₃ :: (tp ++ t₄ :: (tb ++ rest)) := by rw [hg.ahead, ha₂, List.drop_zero]
  have ha₄ := (ahead_next ha₃).2
  obtain ⟨s₂, hloop, hopen₂, hlen₂⟩ :=
    paramLoop_reads (hopen.forward 1) hparams ha₄ (by rw [List.headD_cons, type_of_shape hrparen])
    (by omega : tp.length < f) (by simpa using Nat.le_of_lt hcount) (by rw [forward_nodes, hlen₁]; omega)
  rw [forward_nodes, hlen₁] at hlen₂
  have ha₅ : s₂.ahead = t₄ :: (tb ++ rest) := by
    rw [hopen₂.ahead, ← List.drop_drop, ← (hopen.forward 1).ahead, ha₄, List.drop_left]
  -- the body is the last child
  obtain ⟨b, s₃, hbody, htook⟩ := suite_reads hblock hreads htb (ahead_next ha₅).2 (by omega : tb.length < f)
    (by rw [forward_nodes, hlen₂]; omega) .colonAfterDef
  obtain ⟨new, hg₃⟩ := htook.grows
  obtain ⟨s₄, hadd, hopen₄, hlen₄⟩ :=
    (hopen₂.forward 1).addChild_room hg₃ htook.laid (by simpa [paramTrees] using hcount)
  refine ⟨s.nodes.length, s₄, ?_, ?_⟩
  · have hcur : s.current = t₁ := (ahead_next ha₀).1
    have hcur₁ : (s.forward 1).current = t₂ := (ahead_next ha₁).1
    have hparse : parseStmt (f + 1) s = parseDef f (parseStmt f) s := by
      rw [parseStmt, bind_ok (peek_apply s), hcur, htype₁]
    have hadv₁ := advance_next ha₀ (by rw [htype₁]; decide)
    have hadv₂ : advance (s.forward 1) = .ok () (s.forward 2) := advance_next ha₁ (by rw [htype₂]; decide)
    have hopens := expect_next ha₃ (type_of_shape hlparen) (by decide) .lparenAfterName
    have hcloses := expect_next ha₅ (type_of_shape hrparen) (by decide) .rparenAfterParameters
    show parseStmt (f + 1) s = _
    rw [hparse, parseDef_suite, bind_ok (peek_apply s), hcur, bind_ok hadv₁, bind_ok (peek_apply _),
      hcur₁, if_neg (by simp [htype₂])]
    exact (bind_ok hadv₂).trans ((bind_ok hleaf).trans
      ((bind_ok hopens).trans ((bind_ok hloop).trans ((bind_ok hcloses).trans
      ((bind_ok hbody).trans (bind_ok hadd))))))
  · have hk : (t₁ :: t₂ :: t₃ :: (tp ++ t₄ :: tb)).length = 2 + 1 + tp.length + 1 + tb.length := by
      simp only [List.length_cons, List.length_append]
      omega
    rw [hk, Stmt.toTree, Stmt.size]
    refine Open.took ?_ ?_
    · simpa using hopen₄
    · rw [hlen₄, htook.length, forward_nodes, hlen₂]
      omega

/-- A while loop, and what it has in common with the other headers. -/
theorem loop_reads (he : e.CallsFit) (hblock : body.isBlock) (hreads : body.Reads) :
    (Stmt.loop e body).Reads := by
  intro fuel x s ts rest h
  obtain ⟨word, -, hshape⟩ := h.shape
  have hs := h.ahead
  have hf := h.fuel_lt
  have hroom := h.room
  rw [Stmt.print] at hshape
  rw [Stmt.size] at hroom
  obtain ⟨t, ts₁, rfl, ht, hshape⟩ := List.map_eq_cons_iff.mp hshape
  obtain ⟨te, tb, rfl, hte, htb⟩ := List.map_eq_append_iff.mp hshape
  have htype := type_of_shape ht
  simp only [List.length_cons, List.length_append] at hf
  obtain ⟨f, rfl⟩ : ∃ f, fuel = f + 1 := ⟨fuel - 1, by omega⟩
  have ha₀ : s.ahead = t :: (te ++ (tb ++ rest)) := by simp [hs]
  obtain ⟨hcur, ha₁⟩ := ahead_next ha₀
  obtain ⟨s₁, hnew, hg⟩ := newNode_room (s := s.forward 1) .whileNode t.line (by rw [forward_nodes]; omega)
  have ha₂ : s₁.ahead = te ++ (tb ++ rest) := by rw [hg.ahead, ha₁, List.drop_zero]
  obtain ⟨c, b, s₂, hheader, htook⟩ :=
    header_reads he hblock hreads hte htb ha₂ (by omega : te.length + tb.length < f)
    (by rw [hg.length, forward_nodes, List.length_singleton]; omega) .colonAfterWhile
  obtain ⟨s₃, hset, -, htook'⟩ :=
    node_reads ((Grows.forward s 1).trans hg) (rfl : _ = Label.plain .whileNode) htook
  refine ⟨s.nodes.length, s₃, ?_, ?_⟩
  · have hparse : parseStmt (f + 1) s = parseWhile f (parseExpr f) (parseStmt f) s := by
      rw [parseStmt, bind_ok (peek_apply s), hcur, htype]
    have hadv := advance_next ha₀ (by rw [htype]; decide)
    show parseStmt (f + 1) s = _
    rw [hparse, parseWhile, bind_ok (peek_apply s), hcur, bind_ok hadv]
    exact (bind_ok hnew).trans ((bind_ok hheader).trans (bind_ok hset))
  · have hk : (t :: (te ++ tb)).length = 1 + 0 + (te.length + tb.length) := by
      simp only [List.length_cons, List.length_append]
      omega
    rw [hk, Stmt.toTree, Stmt.size]
    exact htook'

theorem forIn_reads {name : List UInt8} (he : e.CallsFit) (hblock : body.isBlock) (hreads : body.Reads) :
    (Stmt.forIn name e body).Reads := by
  intro fuel x s ts rest h
  obtain ⟨word, -, hshape⟩ := h.shape
  have hs := h.ahead
  have hf := h.fuel_lt
  have hroom := h.room
  rw [Stmt.print] at hshape
  rw [Stmt.size] at hroom
  obtain ⟨t₁, ts₁, rfl, hfor, hshape⟩ := List.map_eq_cons_iff.mp hshape
  obtain ⟨t₂, ts₂, rfl, hname, hshape⟩ := List.map_eq_cons_iff.mp hshape
  obtain ⟨t₃, ts₃, rfl, hin, hshape⟩ := List.map_eq_cons_iff.mp hshape
  obtain ⟨te, tb, rfl, hte, htb⟩ := List.map_eq_append_iff.mp hshape
  obtain ⟨htype₂, rfl⟩ := name_of_shape hname
  have htype₁ := type_of_shape hfor
  simp only [List.length_cons, List.length_append] at hf
  obtain ⟨f, rfl⟩ : ∃ f, fuel = f + 1 := ⟨fuel - 1, by omega⟩
  have ha₀ : s.ahead = t₁ :: t₂ :: t₃ :: (te ++ (tb ++ rest)) := by simp [hs]
  have ha₁ : (s.forward 1).ahead = t₂ :: t₃ :: (te ++ (tb ++ rest)) := (ahead_next ha₀).2
  have ha₂ : (s.forward 2).ahead = t₃ :: (te ++ (tb ++ rest)) := (ahead_next ha₁).2
  have ha₃ : (s.forward 3).ahead = te ++ (tb ++ rest) := (ahead_next ha₂).2
  obtain ⟨s₁, hleaf, hg⟩ :=
    leaf_room (s := s.forward 3) .forNode t₁.line 0 t₂.strVal (by rw [forward_nodes]; omega)
  have ha₄ : s₁.ahead = te ++ (tb ++ rest) := by rw [hg.ahead, ha₃, List.drop_zero]
  obtain ⟨c, b, s₂, hheader, htook⟩ :=
    header_reads he hblock hreads hte htb ha₄ (by omega : te.length + tb.length < f)
    (by rw [hg.length, forward_nodes, List.length_singleton]; omega) .colonAfterFor
  obtain ⟨s₃, hset, -, htook'⟩ :=
    node_reads ((Grows.forward s 3).trans hg) (rfl : _ = Label.text .forNode t₂.strVal) htook
  refine ⟨s.nodes.length, s₃, ?_, ?_⟩
  · have hcur : s.current = t₁ := (ahead_next ha₀).1
    have hcur₁ : (s.forward 1).current = t₂ := (ahead_next ha₁).1
    have hparse : parseStmt (f + 1) s = parseFor f (parseExpr f) (parseStmt f) s := by
      rw [parseStmt, bind_ok (peek_apply s), hcur, htype₁]
    have hadv₁ := advance_next ha₀ (by rw [htype₁]; decide)
    have hadv₂ : advance (s.forward 1) = .ok () (s.forward 2) := advance_next ha₁ (by rw [htype₂]; decide)
    have hin' : expect .kwIn .inAfterVariable (s.forward 2) = .ok () (s.forward 3) :=
      expect_next ha₂ (type_of_shape hin) (by decide) _
    show parseStmt (f + 1) s = _
    rw [hparse, parseFor, bind_ok (peek_apply s), hcur, bind_ok hadv₁, bind_ok (peek_apply _), hcur₁,
      if_neg (by simp [htype₂])]
    exact (bind_ok hadv₂).trans
      ((bind_ok hin').trans ((bind_ok hleaf).trans ((bind_ok hheader).trans (bind_ok hset))))
  · have hk : (t₁ :: t₂ :: t₃ :: (te ++ tb)).length = 3 + 0 + (te.length + tb.length) := by
      simp only [List.length_cons, List.length_append]
      omega
    rw [hk, Stmt.toTree, Stmt.size]
    exact htook'

/-! An if statement, which is the same under `elif`. -/

theorem parseIf_suite (fuel : Nat) : parseIf fuel (parseExpr fuel) (parseStmt fuel) = (do
    let t ← peek
    advance
    let n ← newNode .ifNode t.line
    let (cond, body) ← parseHeader fuel (parseExpr fuel) (parseStmt fuel) .colonAfterIf
    setNode n fun x => { x with children := [cond, body] }
    skipNewlines
    if ← check .kwElif then
      let elifNode ← parseStmt fuel
      setNode n fun x => { x with children := [cond, body, elifNode] }
    else if ← check .kwElse then
      advance
      let elseBody ← parseSuite fuel .colonAfterElse
      setNode n fun x => { x with children := [cond, body, elseBody] }
    return n) := by
  simp only [parseIf, parseSuite, bind_assoc]

theorem parseStmt_if (h : s.current.type ∈ [TokenType.kwIf, .kwElif]) :
    parseStmt (fuel + 1) s = parseIf fuel (parseExpr fuel) (parseStmt fuel) s := by
  rw [parseStmt, bind_ok (peek_apply s)]
  obtain h | h : s.current.type = .kwIf ∨ s.current.type = .kwElif := by simpa using h
  · rw [h]
  · rw [h]

/-- The condition and the first block, up to the look at what comes behind them. -/
theorem if_reads {te tb : List Token} (he : e.CallsFit) (hblock : body.isBlock) (hreads : body.Reads)
    (ht : t.type ∈ [TokenType.kwIf, .kwElif]) (hte : te.map Token.shape = e.print 5)
    (htb : tb.map Token.shape = body.print .kwIf) (hs : s.ahead = t :: (te ++ (tb ++ rest)))
    (hrest : (rest.headD eofToken).type ≠ .newline) (hf : te.length + tb.length < fuel)
    (hroom : s.nodes.length + (e.size + body.size + 1) ≤ maxNodes) :
    ∃ c b s', Behind s (1 + (te.length + tb.length)) (.plain .ifNode) [e.toTree, body.toTree] [c, b] s' ∧
      Took s (1 + (te.length + tb.length)) [.node (.plain .ifNode) [e.toTree,
        body.toTree]] (e.size + body.size + 1)
        [s.nodes.length] s' ∧ s'.ahead = rest ∧
      parseStmt (fuel + 1) s = (do
        if ← check .kwElif then
          let elifNode ← parseStmt fuel
          setNode s.nodes.length fun x => { x with children := [c, b, elifNode] }
        else if ← check .kwElse then
          advance
          let elseBody ← parseSuite fuel .colonAfterElse
          setNode s.nodes.length fun x => { x with children := [c, b, elseBody] }
        return s.nodes.length : GkM Nat) s' := by
  obtain ⟨hcur, ha₁⟩ := ahead_next hs
  obtain ⟨s₁, hnew, hg⟩ := newNode_room (s := s.forward 1) .ifNode t.line (by rw [forward_nodes]; omega)
  have ha₂ : s₁.ahead = te ++ (tb ++ rest) := by rw [hg.ahead, ha₁, List.drop_zero]
  obtain ⟨c, b, s₂, hheader, htook⟩ := header_reads he hblock hreads hte htb ha₂ hf
    (by rw [hg.length, forward_nodes, List.length_singleton]; omega) .colonAfterIf
  obtain ⟨s₃, hset, hbehind, htook'⟩ :=
    node_reads ((Grows.forward s 1).trans hg) (rfl : _ = Label.plain .ifNode) htook
  have ha₃ : s₃.ahead = rest := by
    have hdrop : 1 + 0 + (te.length + tb.length) = 1 + (te ++ tb).length := by rw [List.length_append]
    rw [htook'.ahead, hdrop, ← List.drop_drop, ← ahead_forward, ha₁, ← List.append_assoc, List.drop_left]
  have hskip : skipNewlines s₃ = .ok () s₃ := by
    refine skipNewlines_none ?_
    rw [current_headD, ha₃]
    exact hrest
  refine ⟨c, b, s₃, hbehind, htook', ha₃, ?_⟩
  have hadv := advance_next hs (by rintro heof; rw [heof] at ht; exact absurd ht (by decide))
  rw [parseStmt_if (by rw [hcur]; exact ht), parseIf_suite, bind_ok (peek_apply s), hcur, bind_ok hadv]
  exact (bind_ok hnew).trans ((bind_ok hheader).trans ((bind_ok hset).trans (bind_ok hskip)))

/-- The keyword, the condition and the first block, and the tokens behind them. -/
theorem if_tokens {after : List Shape} {word : TokenType} (hword : word ∈ [TokenType.kwIf, .kwElif])
    (h : ts.map Token.shape = .symbol word :: (e.print 5 ++ (body.print .kwIf ++ after))) :
    ∃ t te tb ta, ts = t :: (te ++ (tb ++ ta)) ∧ t.type ∈ [TokenType.kwIf, .kwElif] ∧
      te.map Token.shape = e.print 5 ∧
      tb.map Token.shape = body.print .kwIf ∧ ta.map Token.shape = after := by
  obtain ⟨t, ts₁, rfl, ht, h⟩ := List.map_eq_cons_iff.mp h
  obtain ⟨te, ts₂, rfl, hte, h⟩ := List.map_eq_append_iff.mp h
  obtain ⟨tb, ta, rfl, htb, hta⟩ := List.map_eq_append_iff.mp h
  exact ⟨t, te, tb, ta, rfl, type_of_shape ht ▸ hword, hte, htb, hta⟩

theorem ite_reads (he : e.CallsFit) (hblock : body.isBlock) (hreads : body.Reads) :
    (Stmt.ite e body).Reads := by
  intro fuel x s ts rest h
  obtain ⟨word, hword, hshape⟩ := h.shape
  have hs := h.ahead
  have hf := h.fuel_lt
  have hroom := h.room
  have hend := h.alone.resolve_left Bool.false_ne_true
  rw [Stmt.print, ← List.append_nil (body.print .kwIf)] at hshape
  rw [Stmt.size] at hroom
  obtain ⟨t, te, tb, ta, rfl, ht, hte, htb, hnil⟩ := if_tokens hword hshape
  obtain rfl := List.map_eq_nil_iff.mp hnil
  simp only [List.length_cons, List.length_append, List.length_nil] at hf
  obtain ⟨f, rfl⟩ : ∃ f, fuel = f + 1 := ⟨fuel - 1, by omega⟩
  have hne : (rest.headD eofToken).type ≠ .newline ∧ (rest.headD eofToken).type ≠ .kwElif ∧
      (rest.headD eofToken).type ≠ .kwElse := by
    generalize (rest.headD eofToken).type = ty at hend
    revert hend
    revert ty
    decide
  obtain ⟨c, b, s₁, -, htook, ha₁, hrun⟩ :=
    if_reads he hblock hreads ht hte htb (by simp [hs] : s.ahead = t :: (te ++ (tb ++ rest)))
    hne.1 (by omega : te.length + tb.length < f) hroom
  refine ⟨s.nodes.length, s₁, ?_, ?_⟩
  · have hcur : s₁.current.type = (rest.headD eofToken).type := by rw [current_headD, ha₁]
    show parseStmt (f + 1) s = _
    rw [hrun, bind_ok (check_apply _ s₁), if_neg (by simpa [hcur] using hne.2.1), bind_ok (check_apply _ s₁),
      if_neg (by simpa [hcur] using hne.2.2)]
    rfl
  · have hk : (t :: (te ++ (tb ++ []))).length = 1 + (te.length + tb.length) := by
      simp only [List.length_cons, List.length_append, List.length_nil]
      omega
    rw [hk, Stmt.toTree, Stmt.size]
    exact htook

theorem iteElse_reads (he : e.CallsFit) (hblock : body.isBlock) (hreads : body.Reads) (hbranch : els.isBranch)
    (hels : els.Reads) : (Stmt.iteElse e body els).Reads := by
  intro fuel x s ts rest h
  obtain ⟨word, hword, hshape⟩ := h.shape
  have hs := h.ahead
  have hf := h.fuel_lt
  have hroom := h.room
  have hend := h.alone.resolve_left Bool.false_ne_true
  rw [Stmt.print] at hshape
  rw [Stmt.size] at hroom
  obtain ⟨t, te, tb, ta, rfl, ht, hte, htb, hta⟩ := if_tokens hword hshape
  simp only [List.length_cons, List.length_append] at hf
  obtain ⟨f, rfl⟩ : ∃ f, fuel = f + 1 := ⟨fuel - 1, by omega⟩
  have ha₀ : s.ahead = t :: (te ++ (tb ++ (ta ++ rest))) := by simp [hs]
  -- what both branches have in common: another child behind the first two
  have hfinish : ∀ {c b : Nat} {s₁ s₂ : Run} {k n : Nat},
      Behind s (1 + (te.length + tb.length)) (.plain .ifNode) [e.toTree, body.toTree] [c, b] s₁ →
      s₁.nodes.length = s.nodes.length + (e.size + body.size + 1) → Took s₁ k [els.toTree] els.size [n] s₂ →
      1 + (te.length + tb.length) + k = (t :: (te ++ (tb ++ ta))).length →
      ∃ s₃, setNode s.nodes.length (fun x => { x with children := [c, b, n] }) s₂ = .ok () s₃ ∧
        Took s (t :: (te ++ (tb ++ ta))).length [(Stmt.iteElse e body els).toTree]
          (Stmt.iteElse e body els).size
          [s.nodes.length] s₃ := by
    intro c b s₁ s₂ k n hbehind hlen htook hk
    have hlen₂ : s₂.nodes.length = s.nodes.length + (e.size + body.size + els.size + 1) := by
      rw [htook.length, hlen]
      omega
    obtain ⟨s₃, hset, -, htook'⟩ := (hbehind.took htook).finish hlen₂
    rw [hk] at htook'
    exact ⟨s₃, hset, by rw [Stmt.toTree, Stmt.size]; exact htook'⟩
  cases hb : els.isBlock with
  | true =>
    rw [branchWord, if_pos hb] at hta
    obtain ⟨t₂, ta', rfl, hword₂, hta'⟩ := List.map_eq_cons_iff.mp hta
    have htype₂ := type_of_shape hword₂
    rw [List.length_cons] at hf
    obtain ⟨c, b, s₁, hbehind, htook, ha₁, hrun⟩ := if_reads he hblock hreads ht hte htb ha₀
      (by rw [List.cons_append, List.headD_cons,
        htype₂]; decide) (by omega : te.length + tb.length < f) (by omega)
    obtain ⟨hcur₁, ha₂⟩ := ahead_next ha₁
    obtain ⟨n, s₂, hsuite, htook₂⟩ := hels f .colonAfterElse (s₁.forward 1) ta' rest
      ⟨⟨.kwElif, by simp, hta'⟩, ha₂, .inl hb, by omega, by rw [forward_nodes, htook.length]; omega⟩
    have hparser : els.parser f .colonAfterElse = parseSuite f .colonAfterElse := by
      cases els with
      | block => rfl
      | _ => cases hb
    rw [hparser] at hsuite
    have htook₃ : Took s₁ (1 + ta'.length) [els.toTree] els.size [n] s₂ := by
      simpa using (Took.forward s₁ 1).append htook₂
    obtain ⟨s₃, hset, htook'⟩ := hfinish hbehind htook.length htook₃
      (by simp only [List.length_cons, List.length_append]; omega)
    refine ⟨s.nodes.length, s₃, ?_, htook'⟩
    have hmiss : ¬ (s₁.current.type == TokenType.kwElif) = true := by rw [hcur₁, htype₂]; decide
    have hhit : (s₁.current.type == TokenType.kwElse) = true := by rw [hcur₁, htype₂]; decide
    have hadv := advance_next ha₁ (by rw [htype₂]; decide)
    show parseStmt (f + 1) s = _
    rw [hrun, bind_ok (check_apply _ s₁), if_neg hmiss, bind_ok (check_apply _ s₁), if_pos hhit]
    exact (bind_ok hadv).trans ((bind_ok hsuite).trans (bind_ok hset))
  | false =>
    rw [branchWord, if_neg (by simp [hb]), List.nil_append] at hta
    obtain ⟨t₂, ta', rfl, htype₂⟩ : ∃ t₂ ta', ta = t₂ :: ta' ∧ t₂.type = .kwElif := by
      cases els with
      | ite | iteElse =>
        obtain ⟨t₂, ta', rfl, ht₂, -⟩ := List.map_eq_cons_iff.mp hta
        exact ⟨t₂, ta', rfl, type_of_shape ht₂⟩
      | block => cases hb
      | _ => cases hbranch
    obtain ⟨c, b, s₁, hbehind, htook, ha₁, hrun⟩ := if_reads he hblock hreads ht hte htb ha₀
      (by rw [List.cons_append, List.headD_cons,
        htype₂]; decide) (by omega : te.length + tb.length < f) (by omega)
    obtain ⟨n, s₂, helif, htook₂⟩ := hels f .colonAfterElse s₁ (t₂ :: ta') rest
      ⟨⟨.kwElif, by simp, hta⟩, ha₁, .inr hend, by omega, by rw [htook.length]; omega⟩
    rw [parser_stmt hb] at helif
    obtain ⟨s₃, hset, htook'⟩ := hfinish hbehind htook.length htook₂
      (by simp only [List.length_cons, List.length_append]; omega)
    refine ⟨s.nodes.length, s₃, ?_, htook'⟩
    have hhit : (s₁.current.type == TokenType.kwElif) = true := by rw [(ahead_next ha₁).1, htype₂]; decide
    show parseStmt (f + 1) s = _
    rw [hrun, bind_ok (check_apply _ s₁), if_pos hhit]
    exact (bind_ok helif).trans (bind_ok hset)

mutual
theorem stmt_reads : (st : Stmt) → st.Fits → st.Reads
  | .expr _, h => expr_reads h
  | .assign _ _, h => assign_reads h
  | .ret none, _ => retNone_reads
  | .ret (some _), h => ret_reads h
  | .brk, _ => jump_reads rfl rfl rfl (by rw [Stmt.toTree]) (by rw [Stmt.size])
    (by decide : TokenType.kwBreak ≠ .eof) fun f s ht => by
    rw [parseStmt, bind_ok (peek_apply s), ht]
  | .cont, _ => jump_reads rfl rfl rfl (by rw [Stmt.toTree]) (by rw [Stmt.size])
    (by decide : TokenType.kwContinue ≠ .eof) fun f s ht => by
    rw [parseStmt, bind_ok (peek_apply s), ht]
  | .define _ _ body, h => define_reads h.1 h.2.1 (stmt_reads body h.2.2)
  | .ite _ body, h => ite_reads h.1 h.2.1 (stmt_reads body h.2.2)
  | .iteElse _ body els, h =>
    iteElse_reads h.1 h.2.1.1 (stmt_reads body h.2.1.2) h.2.2.1 (stmt_reads els h.2.2.2)
  | .loop _ body, h => loop_reads h.1 h.2.1 (stmt_reads body h.2.2)
  | .forIn _ _ body, h => forIn_reads h.1 h.2.1 (stmt_reads body h.2.2)
  | .block sts, h => block_reads h.1 h.2 (stmts_read sts h.2)

theorem stmts_read : (sts : List Stmt) → allFit sts → ∀ st ∈ sts, st.Reads
  | [], _ => by simp
  | st :: sts, h => List.forall_mem_cons.mpr ⟨stmt_reads st h.1.2, stmts_read sts h.2⟩
end

/-- The parser reads the printed statements as those of its block, up to the end. -/
theorem gkParse_reads (sts : List Stmt) (hcount : sts.length ≤ maxChildren) (hfit : allFit sts)
    (hsize : sizeAll sts < maxNodes)
    (s : Run) (hts : s.tokens.map Token.shape = printAll sts ++ [.symbol .eof]) :
    ∃ s', gkParse s = .ok 0 s' ∧ Open s.cleared (printAll sts).length (.plain .block) (stmtTrees sts) s' ∧
      s'.nodes.length = sizeAll sts + 1 := by
  obtain ⟨ta, te, hall, hta, hte⟩ := List.map_eq_append_iff.mp hts
  obtain ⟨t, tnil, rfl, ht, hnil⟩ := List.map_eq_cons_iff.mp hte
  obtain rfl := List.map_eq_nil_iff.mp hnil
  have htype := type_of_shape ht
  have hlen : s.tokens.length = ta.length + 1 := by rw [hall, List.length_append, List.length_singleton]
  have hend : (([t] : List Token).headD eofToken).type ∈ [TokenType.eof] := by
    rw [List.headD_cons, htype]
    decide
  have hends : ∀ ty ∈ [TokenType.eof], ty ∈ [TokenType.dedent, .eof] := by decide
  -- the root, and the statements of the program
  obtain ⟨s₁, hnew, hg⟩ := newNode_room (s := s.cleared) .block 0 (by decide : (0 : Nat) < maxNodes)
  have hopen : Open s.cleared 0 (.plain .block) [] s₁ := Open.single hg rfl
  have ha₀ : s.cleared.ahead = ta ++ [t] := hall
  have ha₁ : s₁.ahead = ta ++ [t] := by rw [hg.ahead, ha₀, List.drop_zero]
  have hskip : skipNewlines s₁ = .ok () s₁ := by
    refine skipNewlines_none fun hnl => ?_
    have hstart := printAll_starts hfit hta (hends _ hend)
    rw [← ha₁, ← current_headD, hnl] at hstart
    exact absurd hstart (by decide)
  have hfuel : ta.length < s.tokens.length + 2 := by omega
  have hroom : s₁.nodes.length + sizeAll sts ≤ maxNodes := by
    rw [hg.length, List.length_singleton]
    show 0 + 1 + _ ≤ _
    omega
  obtain ⟨s₂, hloop, hopen₂, hlen₂⟩ :=
    stmtLoop_reads (x := .tooManyStatements) hends hfit (stmts_read sts hfit) hopen hta ha₁ hend hfuel hfuel
      (by simpa using hcount) hroom
  rw [Nat.zero_add, List.nil_append] at hopen₂
  have hcount : ta.length = (printAll sts).length := by rw [← hta, List.length_map]
  refine ⟨s₂, ?_, hcount ▸ hopen₂, ?_⟩
  · rw [gkParse_eq]
    exact (bind_ok hnew).trans ((bind_ok hskip).trans (bind_ok hloop))
  · rw [hlen₂, hg.length, List.length_singleton]
    show 0 + 1 + _ = _
    omega

/-- The parser inverts the printer: on the tokens of a program that fits, whatever their
lines are, it stops in front of the end and leaves exactly the nodes of that program. -/
theorem gkParse_print (sts : List Stmt) (hcount : sts.length ≤ maxChildren) (hfit : allFit sts)
    (hsize : sizeAll sts < maxNodes)
    (s : Run) (hts : s.tokens.map Token.shape = printAll sts ++ [.symbol .eof]) :
    ∃ s', gkParse s = .ok 0 s' ∧ Laid (cell s'.nodes) 0 [(Stmt.block sts).toTree] [0] s'.nodes.length ∧
      s'.nodes.length = sizeAll sts + 1 ∧ s'.tokPos + 1 = s.tokens.length ∧
      { s' with nodes := s.nodes, tokPos := s.tokPos, past := s.past } = s := by
  obtain ⟨s', hrun, hopen, hsize'⟩ := gkParse_reads sts hcount hfit hsize s hts
  obtain ⟨new, hgrows⟩ := hopen.grows
  have hlen : s.tokens.length = (printAll sts).length + 1 := by
    rw [← List.length_map (f := Token.shape), hts, List.length_append, List.length_singleton]
  refine ⟨s', hrun, hopen.close, hsize', ?_, ?_⟩
  · rw [hgrows.tokPos, hlen]
    show 0 + _ + 1 = _
    omega
  · have hback := congrArg (fun r : Run => { r with nodes := s.nodes, tokPos := s.tokPos, past := s.past })
      hgrows.frame
    exact hback

/-- A definition, and each of the loops and branches. -/
def sampleProgram : List Stmt :=
  let x := Expr.var (ascii "x")
  [.define (ascii "less") [ascii "a",
    ascii "b"] (.block [.ret (some (.binop .sub (.var (ascii "a")) (.var (ascii "b"))))]),
   .assign (ascii "x") (.int 9),
   .loop (.binop .gt x (.int 0)) (.block
    [.assign (ascii "x") (.call (ascii "less") [x, .int 2]),
     .iteElse (.binop .eq x (.int 7)) (.block [.cont]) (.iteElse (.binop .lt x (.int 4)) (.block [.brk])
      (.block [.expr (.call (ascii "print") [x])]))]),
   .forIn (ascii "i") (.call (ascii "range") [.int 2])
   (.block [.ite (.var (ascii "i"))
   (.block [.expr (.call (ascii "print") [.str (ascii "i"), .var (ascii "i")])])]), .ret none]

theorem sampleProgram_fits : sampleProgram.length ≤ maxChildren ∧ allFit sampleProgram ∧
    sizeAll sampleProgram < maxNodes := by
  simp [sampleProgram, allFit, Stmt.Fits, Stmt.isBlock, Stmt.isBranch, Expr.CallsFit, argsFit,
    maxChildren, maxNodes, sizeAll, Stmt.size,
    Expr.size, sizeArgs]

/-- The tokens of the sample in front of their parser. -/
def programRun : Run :=
  GkState.start { freshState [] with tokens := (printAll sampleProgram ++ [Shape.symbol .eof]).map Shape.token }

theorem gkParse_print_sample : ∃ s', gkParse programRun = .ok 0 s' ∧
    Laid (cell s'.nodes) 0 [(Stmt.block sampleProgram).toTree] [0] s'.nodes.length ∧
    s'.nodes.length = sizeAll sampleProgram + 1 ∧ s'.tokPos + 1 = programRun.tokens.length ∧
    { s' with nodes := programRun.nodes, tokPos := programRun.tokPos, past := programRun.past } = programRun :=
  gkParse_print sampleProgram sampleProgram_fits.1 sampleProgram_fits.2.1 sampleProgram_fits.2.2
    programRun (by decide)

end GeckoOS.Gk
