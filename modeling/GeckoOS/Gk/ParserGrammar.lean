import GeckoOS.Gk.Grammar
import GeckoOS.Gk.ParserWalk
import GeckoOS.Gk.TokenStream

/-! The token streams that the parser accepts are in the grammar exactly when
they pass the watch. -/
namespace GeckoOS.Gk
open Lib Watch
variable {s s' : Run} {n fuel : Nat} {expr stmt : GkM Nat} {cs e : List TokenType} {next : TokenType}

/-! The types of the tokens ahead. -/

theorem current_types (s : Run) : s.current.type = s.types.headD .eof := by
  rw [current_headD, Run.types]
  cases s.ahead <;> rfl

theorem Grows.types_eq {new : List Node} (h : Grows 0 new s s') : s'.types = s.types := h.types

theorem Grows.current_eq {new : List Node} (h : Grows 0 new s s') : s'.current.type = s.current.type := by
  rw [current_types, current_types, h.types_eq]

theorem setNode_types {f : Node → Node} (h : setNode n f s = .ok () s') : s'.types = s.types := by
  cases h
  rfl

theorem addChild_types {c : Nat} (h : addChild n c s = .ok () s') : s'.types = s.types := by
  rw [addChild, bind_ok (get_apply s)] at h
  split at h
  · exact setNode_types h
  · cases h

theorem addChecked_types {c : Nat} {e : GkError} (h : addChecked n c e s = .ok () s') : s'.types = s.types := by
  rw [addChecked, bind_ok (get_apply s)] at h
  split at h
  · cases h
  · exact addChild_types h

private theorem skipLines_ahead (s : Run) : s.skipLines.ahead = s.ahead.dropWhile (·.type == .newline) :=
  calc s.skipLines.ahead
      = s.ahead.drop (s.ahead.takeWhile (·.type == .newline)).length := ahead_forward s _
    _ = (s.ahead.takeWhile (·.type == .newline) ++ s.ahead.dropWhile (·.type == .newline)).drop
          (s.ahead.takeWhile (·.type == .newline)).length := by rw [List.takeWhile_append_dropWhile]
    _ = s.ahead.dropWhile (·.type == .newline) := List.drop_left

theorem skipLines_types (s : Run) : ∃ k, s.types = List.replicate k TokenType.newline ++ s.skipLines.types := by
  refine ⟨(s.ahead.takeWhile (·.type == .newline)).length, ?_⟩
  have hlines : (s.ahead.takeWhile (·.type == .newline)).map (·.type) =
      List.replicate (s.ahead.takeWhile (·.type == .newline)).length .newline := by
    refine List.eq_replicate_iff.mpr ⟨List.length_map _, fun t ht => ?_⟩
    obtain ⟨tok, htok, rfl⟩ := List.mem_map.mp ht
    have hline := List.mem_takeWhile_imp htok
    exact beq_iff_eq.mp hline
  rw [← hlines, Run.types, Run.types, skipLines_ahead, ← List.map_append, List.takeWhile_append_dropWhile]

theorem skipLines_current (s : Run) : s.skipLines.current.type ≠ .newline := by
  rw [current_headD, skipLines_ahead]
  have hhead := List.head?_dropWhile_not (fun t : Token => t.type == .newline) s.ahead
  cases hd : s.ahead.dropWhile fun t => t.type == .newline with
  | nil => decide
  | cons tok rest =>
    rw [hd] at hhead
    simpa using hhead

theorem skipLines_of_ne (h : s.current.type ≠ .newline) : s.skipLines.types = s.types := by
  rw [Run.types, Run.types, skipLines_ahead]
  rw [current_headD] at h
  cases ha : s.ahead with
  | nil => rfl
  | cons tok rest =>
    rw [ha] at h
    rw [List.dropWhile_cons_of_neg (by simpa using h)]

/-! Expressions. -/

/-- The tokens of an operand that stands in front of a token, which is none of `ops`. -/
structure Operand (ops cs : List TokenType) (next : TokenType) : Prop where
  derives : Derives .expr cs
  ends : ∃ init a, cs = init ++ [a] ∧ a ∈ exprEnds ∧ (a = .ident → next ≠ .lparen)
  stops : next ∉ ops

/-- What the parser consumes, in front of what it leaves, has the form `F`. -/
def ReadsForm {α : Type} (p : GkM α) (F : List TokenType → TokenType → Prop) : Prop :=
  ∀ s a s', p s = .ok a s' → ∃ cs, s.types = cs ++ s'.types ∧ F cs s'.current.type

theorem Operand.weaken {ops ops' : List TokenType} (h : Operand ops cs next) (hsub : ∀ t ∈ ops', t ∈ ops) :
    Operand ops' cs next := ⟨h.derives, h.ends, fun hn => h.stops (hsub _ hn)⟩

private theorem types_cons {t : TokenType} (h : s.current.type = t) (ht : t ≠ .eof) :
    s.types = t :: (s.forward 1).types := by
  rw [types_of_current (h ▸ ht), h]

private theorem reads_argLoop (he : ReadsForm expr (Operand binaryOps)) (n fuel : Nat) :
    ReadsForm (argLoop expr n fuel) fun cs _ => Derives .args cs := by
  induction fuel with
  | zero =>
    intro s u s' h
    cases h
  | succ fuel ih =>
    intro s u s' h
    rcases argLoop_ok h with ⟨-, rfl⟩ | ⟨arg, s₁, s₂, h₁, h₂, hrest⟩
    · exact ⟨[], rfl, .noArg⟩
    · obtain ⟨e, htypes, hop⟩ := he s arg s₁ h₁
      have hsame := addChecked_types h₂
      rcases hrest with ⟨hcomma, hloop⟩ | ⟨-, rfl⟩
      · obtain ⟨as, has, hargs⟩ := ih _ _ _ hloop
        refine ⟨e ++ .comma :: as, ?_, .nextArg hop.derives hargs⟩
        rw [htypes, ← hsame, types_cons hcomma (by decide), has, List.append_assoc, List.cons_append]
      · exact ⟨e, by rw [htypes, hsame], .lastArg hop.derives⟩

private theorem reads_paramLoop (n fuel : Nat) : ReadsForm (paramLoop n fuel) fun cs _ =>
  Derives .params cs := by
  induction fuel with
  | zero =>
    intro s u s' h
    cases h
  | succ fuel ih =>
    intro s u s' h
    rcases paramLoop_ok h with ⟨-, rfl⟩ | ⟨hident, pn, s₁, s₂, h₁, h₂, hrest⟩
    · exact ⟨[], rfl, .noParam⟩
    · obtain ⟨-, hg⟩ := leaf_ok h₁
      have hcons : s.types = .ident :: s₂.types := by
        rw [types_cons hident (by decide), addChild_types h₂, hg.types_eq]
      rcases hrest with ⟨hcomma, hloop⟩ | ⟨-, rfl⟩
      · obtain ⟨ps, hps, hd⟩ := ih _ _ _ hloop
        refine ⟨.ident :: .comma :: ps, ?_, .nextParam hd⟩
        rw [hcons, types_cons hcomma (by decide), hps]
        rfl
      · exact ⟨[.ident], hcons, .lastParam⟩

private theorem reads_parsePrimary (he : ReadsForm expr (Operand binaryOps)) (fuel : Nat) :
    ReadsForm (parsePrimary fuel expr) (Operand []) := by
  intro s n s' h
  rcases parsePrimary_ok h with ⟨hatom, hcall, -, node, hg, -⟩ | ⟨hident, hparen, s₁, s₂, h₁, h₂, hclose, rfl⟩ |
    ⟨hparen, s₁, h₁, hclose, rfl⟩
  · have hne : ∀ t ∈ atoms, t ≠ .eof ∧ t ∈ exprEnds := by decide
    have hnext : s'.types = (s.forward 1).types := hg.types.trans (Grows.forward s 1).types.symm
    refine ⟨[s.current.type], ?_, .atom hatom, ⟨[], _, rfl, (hne _ hatom).2, fun hi => ?_⟩, List.not_mem_nil⟩
    · rw [types_of_current (hne _ hatom).1, hnext]
      rfl
    · rw [current_types, hnext, ← current_types]
      exact hcall hi
  · obtain ⟨-, hg⟩ := leaf_ok h₁
    obtain ⟨as, has, hargs⟩ := reads_argLoop he n fuel _ _ _ h₂
    refine ⟨.ident :: .lparen :: (as ++ [TokenType.rparen]), ?_, .call hargs,
      ⟨.ident :: .lparen :: as, .rparen, rfl, by decide, nofun⟩,
      List.not_mem_nil⟩
    have hargs' : (s.forward 2).types = as ++ .rparen :: (s₂.forward 1).types := by
      rw [← hg.types_eq, has, types_cons hclose (by decide)]
    rw [types_cons hident (by decide), types_cons hparen (by decide),
      show ((s.forward 1).forward 1).types = (s.forward 2).types from rfl, hargs']
    simp
  · obtain ⟨e, htypes, hop⟩ := he _ _ _ h₁
    refine ⟨.lparen :: (e ++ [TokenType.rparen]), ?_, .parens hop.derives,
      ⟨.lparen :: e, .rparen, rfl, by decide, nofun⟩, List.not_mem_nil⟩
    rw [types_cons hparen (by decide), htypes, types_cons hclose (by decide)]
    simp

private theorem reads_parseUnary {primary : GkM Nat} (hp : ReadsForm primary (Operand [])) (fuel : Nat) :
    ReadsForm (parseUnary primary fuel) (Operand []) := by
  induction fuel with
  | zero =>
    intro s n s' h
    cases h
  | succ fuel ih =>
    intro s n s' h
    rcases parseUnary_ok h with ⟨hop, operand, s₁, h₁, h₂⟩ | h
    · obtain ⟨-, hg⟩ := operatorNode_ok h₂
      obtain ⟨e, htypes, hexpr⟩ := ih _ _ _ h₁
      obtain ⟨init, a, rfl, ha, hcall⟩ := hexpr.ends
      have hne : s.current.type ≠ .eof := by
        rcases hop with hop | hop <;> rw [hop] <;> decide
      refine ⟨s.current.type :: (init ++ [a]), ?_, .unary hop hexpr.derives,
        ⟨s.current.type :: init, a, rfl, ha, ?_⟩, List.not_mem_nil⟩
      · rw [types_of_current hne, htypes, hg.types_eq, List.cons_append]
      · rwa [hg.current_eq]
    · exact hp _ _ _ h

/-- The loop goes on behind an operand `e`. -/
private theorem reads_binaryLoop {operand : GkM Nat} {ops ops' : List TokenType}
    (hp : ReadsForm operand (Operand ops))
    (hsub : ∀ t ∈ ops', t ∈ binaryOps) {left : Nat} (he : Operand ops e s.current.type)
    (h : binaryLoop ops' operand fuel left s = .ok n s') :
    ∃ cs, s.types = cs ++ s'.types ∧ Operand (ops' ++ ops) (e ++ cs) s'.current.type := by
  induction fuel generalizing left s e with
  | zero => cases h
  | succ fuel ih =>
    have heof : TokenType.eof ∉ ops' := fun hmem => absurd (hsub _ hmem) (by decide)
    rcases binaryLoop_ok heof h with ⟨hop, right, s₁, n₁, s₂, h₁, h₂, hloop⟩ | ⟨hop, rfl, rfl⟩
    · obtain ⟨-, hg⟩ := operatorNode_ok h₂
      obtain ⟨r, htypes, hr⟩ := hp _ _ _ h₁
      obtain ⟨init, a, rfl, ha, hcall⟩ := hr.ends
      have hboth : Operand ops (e ++ s.current.type :: (init ++ [a])) s₂.current.type := by
        rw [hg.current_eq]
        exact ⟨.binary (hsub _ hop) he.derives hr.derives,
          ⟨e ++ s.current.type :: init, a, by simp, ha, hcall⟩, hr.stops⟩
      obtain ⟨cs, hcs, hall⟩ := ih hboth hloop
      refine ⟨s.current.type :: (init ++ [a]) ++ cs, ?_, by rw [← List.append_assoc]; exact hall⟩
      rw [types_of_current fun h => heof (h ▸ hop), htypes, ← hg.types_eq, hcs]
      simp
    · refine ⟨[],
        rfl, by rw [List.append_nil]; exact he.derives, by rw [List.append_nil]; exact he.ends, fun hmem => ?_⟩
      rcases List.mem_append.mp hmem with hmem | hmem
      · exact hop hmem
      · exact he.stops hmem

private theorem reads_parseBinary {operand : GkM Nat} {ops : List TokenType}
    (hp : ReadsForm operand (Operand ops))
    (ops' : List TokenType) (hsub : ∀ t ∈ ops', t ∈ binaryOps) (fuel : Nat) :
    ReadsForm (parseBinary ops' fuel operand) (Operand (ops' ++ ops)) := by
  intro s n s' h
  obtain ⟨left, s₁, h₁, h₂⟩ := bind_eq_ok h
  obtain ⟨e, htypes, he⟩ := hp _ _ _ h₁
  obtain ⟨cs, hcs, hall⟩ := reads_binaryLoop hp hsub he h₂
  exact ⟨e ++ cs, by rw [htypes, hcs, List.append_assoc], hall⟩

/-- The parser reads expressions as far as they go. -/
theorem reads_parseExpr (fuel : Nat) : ReadsForm (parseExpr fuel) (Operand binaryOps) := by
  induction fuel with
  | zero =>
    intro s n s' h
    cases h
  | succ fuel ih =>
    have hunary := reads_parseUnary (reads_parsePrimary ih fuel) fuel
    have hmul := reads_parseBinary hunary mulOps (by decide) fuel
    have hadd := reads_parseBinary hmul addOps (by decide) fuel
    have hcmp := reads_parseBinary hadd cmpOps (by decide) fuel
    have hand := reads_parseBinary hcmp [.and] (by decide) fuel
    have hor := reads_parseBinary hand [.or] (by decide) fuel
    intro s n s' h
    obtain ⟨cs, htypes, hop⟩ := hor s n s' h
    exact ⟨cs, htypes, hop.weaken (by decide)⟩

/-! Lines and what lies ahead. -/

/-- EOF is the last token, and the tokens of a line go on up to its NEWLINE. -/
def Lined : List TokenType → Prop
  | [] => True
  | [t] => t = .eof
  | a :: b :: ts => a ≠ .eof ∧ (a.inline = true → b.inline = true ∨ b = .newline) ∧ Lined (b :: ts)

namespace Lined
variable {a t : TokenType} {ts init : List TokenType}

theorem tail (h : Lined (a :: ts)) : Lined ts := by
  cases ts with
  | nil => trivial
  | cons b ts => exact h.2.2

theorem of_append (h : Lined (init ++ ts)) : Lined ts := by
  induction init with
  | nil => exact h
  | cons a init ih => exact ih h.tail

theorem goesOn (h : Lined (a :: ts)) (ha : a.inline = true) :
    (ts.headD .eof).inline = true ∨ ts.headD .eof = .newline := by
  cases ts with
  | nil =>
    obtain rfl : a = .eof := h
    cases ha
  | cons b ts => exact h.2.1 ha

theorem eof_last (h : Lined ts) (ht : ts.headD .eof = .eof) : ts = [] ∨ ts = [.eof] := by
  cases ts with
  | nil => exact .inl rfl
  | cons a ts =>
    obtain rfl : a = .eof := ht
    cases ts with
    | nil => exact .inr rfl
    | cons b ts => exact absurd rfl h.1

end Lined

/-- The watch stands in front of `ts`, which it passes with all blocks closed at the end. -/
structure Ahead (w : Watch) (ts : List TokenType) : Prop where
  lined : Lined ts
  passes : ∃ w', w.Sees ts w' ∧ w'.blocks = []

namespace Ahead
variable {w w' : Watch} {a t : TokenType} {ts init : List TokenType}

theorem drop (h : Ahead w (cs ++ ts)) (hs : w.Sees cs w') : Ahead w' ts := by
  obtain ⟨w₂, hw₂, hb⟩ := h.passes
  obtain ⟨w₁, h₁, h₂⟩ := sees_append.mp hw₂
  obtain rfl : w₁ = w' := Option.some.inj (h₁.symm.trans hs)
  exact ⟨h.lined.of_append, w₂, h₂, hb⟩

theorem step (h : Ahead w (t :: ts)) : ∃ w', w.step t = some w' ∧ Ahead w' ts := by
  obtain ⟨w₂, hw₂, hb⟩ := h.passes
  obtain ⟨w₁, h₁, h₂⟩ := sees_cons.mp hw₂
  exact ⟨w₁, h₁, h.lined.tail, w₂, h₂, hb⟩

theorem not_joined (h : Ahead w (init ++ a :: t :: ts)) : joined a t = false := by
  obtain ⟨w₂, hw₂, -⟩ := h.passes
  obtain ⟨w₁, -, h₁⟩ := sees_append.mp hw₂
  obtain ⟨w₃, h₃, h₄⟩ := sees_cons.mp h₁
  obtain ⟨w₅, h₅, -⟩ := sees_cons.mp h₄
  rw [← step_last h₃]
  exact joined_of_step h₅

theorem blocks_of_eof (h : Ahead w ts) (ht : ts.headD .eof = .eof) : w.blocks = [] := by
  obtain ⟨w', hw', hb⟩ := h.passes
  rcases h.lined.eof_last ht with rfl | rfl
  · rw [sees_nil.mp hw']
    exact hb
  · obtain ⟨w₁, h₁, h₂⟩ := sees_cons.mp hw'
    rw [step_plain (joined_of_notBegins (by decide) _) rfl] at h₁
    obtain rfl := Option.some.inj h₁
    rw [← sees_nil.mp h₂] at hb
    exact hb

end Ahead

/-- Blank lines. -/
private theorem sees_newlines (w : Watch) (k : Nat) (hl : w.last ∉ lineEnds) :
    ∃ w', w.Sees (List.replicate k .newline) w' ∧ w'.blocks = w.blocks ∧ w'.header = w.header ∧
    w'.closed = w.closed ∧
      w'.last ∉ lineEnds := by
  induction k generalizing w with
  | zero => exact ⟨w, sees_nil.mpr rfl, rfl, rfl, rfl, hl⟩
  | succ k ih =>
    obtain ⟨w', hs, hrest⟩ := ih { w with last := .newline } (show TokenType.newline ∉ lineEnds by decide)
    exact ⟨w', sees_cons.mpr ⟨_, step_newline w, hs⟩, hrest⟩

private theorem blank_statements (k : Nat) (h : Derives .statements cs) :
    Derives .statements (List.replicate k TokenType.newline ++ cs) := by
  induction k with
  | zero => exact h
  | succ k ih => exact .blank ih

private theorem blank_clauses (k : Nat) (h : Derives .clauses cs) :
    Derives .clauses (List.replicate k TokenType.newline ++ cs) := by
  induction k with
  | zero => exact h
  | succ k ih => exact .blankClause ih

/-! Statements. -/

/-- The tokens of a simple statement that has no NEWLINE of its own. -/
def Bare (cs : List TokenType) (next : TokenType) : Prop :=
  ∃ init a, cs = init ++ [a] ∧ a.inline = true ∧ next ≠ .newline ∧ (next ∈ begins → joined a next = true)

/-- The tokens of a statement of the grammar, or of the clauses behind an if; an
elif that could follow has been read with them. -/
structure Full (w : Watch) (first : TokenType) (cs : List TokenType) (next : TokenType) : Prop where
  derives : if first = .kwElif then Derives .clauses cs else Derives .statement cs
  goesOn : ∃ w', w.Sees cs w' ∧ w'.blocks = w.blocks ∧ w'.last ∉ lineEnds ∧
    (w'.closed = true → next ≠ .kwElif ∧ next ≠ .newline)

/-- What a parser of statements consumes where the watch stands at the beginning of a line. -/
structure StmtReads (stmt : GkM Nat) : Prop where
  begins : ∀ s n s', stmt s = .ok n s' → s.current.type ∈ begins
  reads : ∀ w s n s', Ahead w s.types → w.last ∉ lineEnds → stmt s = .ok n s' → ∃ cs, s.types = cs ++ s'.types ∧
    (Full w s.current.type cs s'.current.type ∨ s.current.type ≠ .kwElif ∧ Bare cs s'.current.type)

section loop
variable {w : Watch}

/-- The statements of a block, or of the program. -/
private theorem reads_stmtLoop (hs : StmtReads stmt) {ends : List TokenType} {err : GkError}
    (hends : ∀ t ∈ ends, t = .dedent ∨ t = .eof) (ha : Ahead w s.types) (hl : w.last ∉ lineEnds)
    (hc : w.closed = true → s.current.type ≠ .kwElif) (h : stmtLoop stmt ends err n fuel s = .ok () s') :
    ∃ ss, s.types = ss ++ s'.types ∧ Derives .statements ss ∧ s'.current.type ∈ ends := by
  induction fuel generalizing s w with
  | zero => cases h
  | succ fuel ih =>
    rcases stmtLoop_ok h with ⟨hend, rfl⟩ | ⟨-, st, s₁, s₂, h₁, h₂, hloop⟩
    · exact ⟨[], rfl, .nothing, hend⟩
    · have hsame := addChecked_types h₂
      obtain ⟨cs, htypes, hfull | ⟨-, init, a, rfl, hinline, hne, hjoined⟩⟩ := hs.reads w s st s₁ ha hl h₁
      · -- an elif would need a block of an if in front of it
        have helif : s.current.type ≠ .kwElif := by
          intro helif
          rw [types_cons helif (by decide)] at ha
          obtain ⟨w₁, hstep, -⟩ := ha.step
          exact hc (closed_of_step_elif hstep) helif
        have hstmt := hfull.derives
        rw [if_neg helif] at hstmt
        obtain ⟨w₁, hs₁, -, hl₁, hc₁⟩ := hfull.goesOn
        obtain ⟨k, hk⟩ := skipLines_types s₂
        obtain ⟨w₂, hs₂, -, -, hcl, hl₂⟩ := sees_newlines w₁ k hl₁
        rw [htypes] at ha
        have ha₁ := ha.drop hs₁
        rw [← hsame, hk] at ha₁
        have hc₂ : w₂.closed = true → s₂.skipLines.current.type ≠ .kwElif := by
          intro hclosed
          obtain ⟨hnext, hline⟩ := hc₁ (hcl ▸ hclosed)
          rw [current_types, ← hsame, ← current_types] at hnext hline
          rwa [current_types, skipLines_of_ne hline, ← current_types]
        obtain ⟨ss, hss, hderives, hend⟩ := ih (ha₁.drop hs₂) hl₂ hc₂ hloop
        refine ⟨cs ++ (List.replicate k TokenType.newline ++ ss), ?_,
          .next hstmt (blank_statements k hderives), hend⟩
        rw [htypes, ← hsame, hk, hss]
        simp
      · -- the next statement would begin on the same line
        exfalso
        have hnext : s₁.current.type.inline = true := by
          have hlined := ha.lined
          rw [htypes, List.append_assoc] at hlined
          rcases hlined.of_append.goesOn hinline with hin | hnl
          · rwa [current_types]
          · exact absurd ((current_types s₁).trans hnl) hne
        have hskip : s₂.skipLines.types = s₁.types := by
          rw [skipLines_of_ne (by rwa [current_types, hsame, ← current_types]), hsame]
        have hcur : s₂.skipLines.current.type = s₁.current.type := by
          rw [current_types, hskip, ← current_types]
        cases fuel with
        | zero => cases hloop
        | succ fuel =>
          rcases stmtLoop_ok hloop with ⟨hend, -⟩ | ⟨-, st', s₃, s₄, h₃, -⟩
          · rw [hcur] at hend
            rcases hends _ hend with heq | heq <;> rw [heq] at hnext <;> cases hnext
          · have hbegin := hs.begins _ _ _ h₃
            rw [hcur] at hbegin
            have hne' : s₁.current.type ≠ .eof := by
              intro heq
              rw [heq] at hnext
              cases hnext
            rw [htypes, types_of_current hne', List.append_assoc] at ha
            have := ha.not_joined
            rw [hjoined hbegin] at this
            cases this

/-- The block behind the colon of a header. -/
private theorem reads_block (hs : StmtReads stmt) (hcolon : s.current.type = .colon) (ha : Ahead w s.types)
    (h : parseBlock fuel stmt ((s.forward 1).skip .newline) = .ok n s') :
    ∃ b, s.types = b ++ s'.types ∧ Derives .block b := by
  obtain ⟨hindent, s₁, s₂, h₁, hloop, rfl⟩ := parseBlock_ok h
  obtain ⟨-, hg⟩ := newNode_ok h₁
  have hcons := types_cons hcolon (by decide)
  -- an INDENT stands at the beginning of a line
  have hnewline : (s.forward 1).current.type = .newline := by
    by_contra hne
    rw [Run.skip, if_neg hne] at hindent
    have hlined := ha.lined
    rw [hcons] at hlined
    have hnext := hlined.goesOn rfl
    rw [← current_types, hindent] at hnext
    rcases hnext with hnext | hnext <;> cases hnext
  rw [Run.skip, if_pos hnewline] at hindent hg
  have hopen : s.types = .colon :: .newline :: .indent :: s₁.types := by
    rw [hcons, types_cons hnewline (by decide), types_cons hindent (by decide), hg.types_eq]
  obtain ⟨k, hk⟩ := skipLines_types s₁
  rw [hopen, hk] at ha
  have ha : Ahead w ([TokenType.colon, .newline, .indent] ++
    (List.replicate k TokenType.newline ++ s₁.skipLines.types)) := ha
  have hfirst : w.Sees [.colon, .newline, .indent] ⟨.indent, w.header :: w.blocks, w.header, false⟩ :=
    sees_plain (joined_of_notBegins (by decide) _) rfl
      (sees_cons.mpr ⟨_, step_newline _, sees_cons.mpr ⟨_, step_indent _, sees_nil.mpr rfl⟩⟩)
  obtain ⟨w₁, hw₁, hb₁, -, hc₁, hl₁⟩ := sees_newlines ⟨.indent, w.header :: w.blocks, w.header, false⟩ k
    (show TokenType.indent ∉ lineEnds by decide)
  have ha₁ := (ha.drop hfirst).drop hw₁
  have hnone : w₁.closed = true → s₁.skipLines.current.type ≠ .kwElif := by
    intro hclosed
    rw [hc₁] at hclosed
    cases hclosed
  obtain ⟨ss, hss, hderives, hend⟩ := reads_stmtLoop hs (by simp) ha₁ hl₁ hnone hloop
  have hdedent : s₂.current.type = .dedent := by
    rcases List.mem_cons.mp hend with hd | heof
    · exact hd
    · obtain ⟨w₂, hw₂, hb₂, -⟩ := hderives.passes w₁ hl₁
      rw [hss] at ha₁
      have hopened := (ha₁.drop hw₂).blocks_of_eof (by rw [← current_types]; exact List.mem_singleton.mp heof)
      rw [hb₂, hb₁] at hopened
      cases hopened
  refine ⟨.colon :: .newline :: .indent :: (List.replicate k TokenType.newline ++ ss ++ [TokenType.dedent]), ?_,
    .block (blank_statements k hderives)⟩
  rw [hopen, hk, hss, Run.skip, if_pos hdedent, types_cons hdedent (by decide)]
  simp

/-- A statement that may be followed by its NEWLINE. -/
private theorem reads_simple (s₁ : Run) (htypes : s.types = cs ++ s₁.types) (hd : Derives .simple cs)
    (hend : ∃ init a, cs = init ++ [a] ∧ a.inline = true ∧
      (s₁.current.type ∈ begins → joined a s₁.current.type = true))
    (hl : w.last ∉ lineEnds) (helif : s.current.type ≠ .kwElif) :
    ∃ cs', s.types = cs' ++ (s₁.skip .newline).types ∧
      (Full w s.current.type cs' (s₁.skip .newline).current.type ∨
        s.current.type ≠ .kwElif ∧ Bare cs' (s₁.skip .newline).current.type) := by
  by_cases hnewline : s₁.current.type = .newline
  · obtain ⟨w₁, hw₁, hb₁, hc₁⟩ := hd.passes w hl
    rw [Run.skip, if_pos hnewline]
    refine ⟨cs ++ [TokenType.newline], ?_, .inl ⟨?_, { w₁ with last := .newline }, ?_, hb₁,
      (show TokenType.newline ∉ lineEnds by decide), fun hclosed => ?_⟩⟩
    · rw [htypes, types_cons hnewline (by decide), List.append_assoc, List.singleton_append]
    · rw [if_neg helif]
      exact .line hd
    · exact sees_append.mpr ⟨w₁, hw₁, sees_cons.mpr ⟨_, step_newline w₁, sees_nil.mpr rfl⟩⟩
    · exact absurd (hc₁.symm.trans hclosed) (by decide)
  · rw [Run.skip, if_neg hnewline]
    obtain ⟨init, a, rfl, hinline, hjoined⟩ := hend
    exact ⟨_, htypes, .inr ⟨helif, init, a, rfl, hinline, hnewline, hjoined⟩⟩

end loop

private theorem Operand.lineEnd (h : Operand binaryOps cs next) :
    ∃ init a, cs = init ++ [a] ∧ a.inline = true ∧ (next ∈ begins → joined a next = true) := by
  obtain ⟨init, a, rfl, ha, hcall⟩ := h.ends
  have hends : ∀ a ∈ exprEnds, a ∈ lineEnds ∧ a.inline = true := by decide
  refine ⟨init, a, rfl, (hends a ha).2, fun hbegin => ?_⟩
  have hminus : next ≠ .minus := by
    rintro rfl
    exact h.stops (by decide)
  have hbracket : a ≠ .ident ∨ next ≠ .lparen := by
    by_cases hident : a = .ident
    · exact .inr (hcall hident)
    · exact .inl hident
  simp [joined, (hends a ha).1, hbegin, hminus, hbracket]

/-! Each form of statement. -/

private theorem exprStmt_begins (h : parseExprStmt (parseExpr fuel) s = .ok n s') :
    s.current.type ∈ begins ∧ s.current.type ≠ .kwElif := by
  obtain ⟨s₁, h₁, -⟩ := parseExprStmt_ok h
  obtain ⟨e, htypes, hop⟩ := reads_parseExpr fuel _ _ _ h₁
  obtain ⟨t, rest, rfl, ht⟩ := hop.derives.begins
  rw [current_types, htypes]
  exact ht

section forms
variable {w : Watch} (ha : Ahead w s.types) (hl : w.last ∉ lineEnds)
include hl

/-- What is to be shown of a statement in front of `s'`. -/
private def Form (w : Watch) (s s' : Run) : Prop :=
  ∃ cs, s.types = cs ++ s'.types ∧
    (Full w s.current.type cs s'.current.type ∨ s.current.type ≠ .kwElif ∧ Bare cs s'.current.type)

private theorem form_exprStmt (helif : s.current.type ≠ .kwElif)
    (h : parseExprStmt (parseExpr fuel) s = .ok n s') :
    Form w s s' := by
  obtain ⟨s₁, h₁, rfl⟩ := parseExprStmt_ok h
  obtain ⟨e, htypes, hop⟩ := reads_parseExpr fuel _ _ _ h₁
  exact reads_simple s₁ htypes (.expression hop.derives) hop.lineEnd hl helif

private theorem form_assign (hident : s.current.type = .ident) (hassign : (s.forward 1).current.type = .assign)
    (h : parseAssign (parseExpr fuel) s = .ok n s') : Form w s s' := by
  obtain ⟨s₁, x, s₂, s₃, h₁, h₂, h₃, rfl⟩ := parseAssign_ok hident hassign h
  obtain ⟨-, hg⟩ := leaf_ok h₁
  obtain ⟨e, htypes, hop⟩ := reads_parseExpr fuel _ _ _ h₂
  have hsame := setNode_types h₃
  obtain ⟨init, a, rfl, hline⟩ := hop.lineEnd
  rw [current_types, ← hsame, ← current_types] at hline
  refine reads_simple s₃ ?_ (.assignment hop.derives) ⟨.ident :: .assign :: init, a, rfl, hline⟩ hl
    (by rw [hident]; decide)
  rw [types_cons hident (by decide), types_cons hassign (by decide),
    show ((s.forward 1).forward 1).types = (s.forward 2).types from rfl, ← hg.types_eq, htypes, hsame]
  simp

include ha

private theorem form_return (hret : s.current.type = .kwReturn)
    (h : parseReturn (parseExpr fuel) s = .ok n s') :
    Form w s s' := by
  obtain ⟨s₁, h₁, hrest⟩ := parseReturn_ok hret h
  obtain ⟨-, hg⟩ := newNode_ok h₁
  have hcons : s.types = .kwReturn :: s₁.types := by rw [types_cons hret (by decide), hg.types_eq]
  have helif : s.current.type ≠ .kwElif := by
    rw [hret]
    decide
  rcases hrest with ⟨hend, rfl⟩ | ⟨x, s₂, s₃, h₂, h₃, rfl⟩
  · have hnewline : s₁.current.type = .newline := by
      have hlined := ha.lined
      rw [hcons] at hlined
      have hnext := hlined.goesOn rfl
      rw [← current_types] at hnext
      rcases hend with hend | hend
      · exact hend
      · rw [hend] at hnext
        rcases hnext with hnext | hnext <;> cases hnext
    have hend' : s₁.current.type ∈ begins → joined .kwReturn s₁.current.type = true := by
      rw [hnewline]
      decide
    exact reads_simple s₁ hcons .ret ⟨[], .kwReturn, rfl, rfl, hend'⟩ hl helif
  · obtain ⟨e, htypes, hop⟩ := reads_parseExpr fuel _ _ _ h₂
    have hsame := setNode_types h₃
    obtain ⟨init, a, rfl, hline⟩ := hop.lineEnd
    rw [current_types, ← hsame, ← current_types] at hline
    refine reads_simple s₃ ?_ (.retValue hop.derives) ⟨.kwReturn :: init, a, rfl, hline⟩ hl helif
    rw [hcons, htypes, hsame, List.cons_append]

omit ha in
private theorem form_jump {type : NodeType} (hjump : s.current.type = .kwBreak ∨ s.current.type = .kwContinue)
    (h : parseJump type s = .ok n s') : Form w s s' := by
  have hkw : ∀ t : TokenType, t = .kwBreak ∨ t = .kwContinue →
      t ≠ .eof ∧ t ≠ .kwElif ∧ t.inline = true ∧ Derives .simple [t] ∧ ∀ b ∈ begins, joined t b = true := by
    rintro t (rfl | rfl)
    · exact ⟨by decide, by decide, rfl, .brk, by decide⟩
    · exact ⟨by decide, by decide, rfl, .cont, by decide⟩
  obtain ⟨heof, helif, hinline, hd, hjoined⟩ := hkw _ hjump
  obtain ⟨-, hg⟩ := newNode_ok (parseJump_ok heof h)
  have hform := reads_simple (w := w) (s.forward 1) (types_of_current heof) hd
    ⟨[], _, rfl, hinline, hjoined _⟩ hl helif
  rw [← hg.types_eq, ← hg.current_eq] at hform
  exact hform

variable (hs : StmtReads stmt)
include hs

/-- The rest of a header, and its block. -/
private theorem reads_header {err : GkError} {cb : Nat × Nat}
    (h : parseHeader fuel (parseExpr fuel) stmt err s = .ok cb s') :
    ∃ e b, s.types = e ++ (b ++ s'.types) ∧ Derives .expr e ∧ Derives .block b := by
  obtain ⟨s₁, h₁, hcolon, hblock⟩ := parseHeader_ok h
  obtain ⟨e, htypes, hop⟩ := reads_parseExpr fuel _ _ _ h₁
  obtain ⟨w₁, hw₁, -⟩ := hop.derives.passes w hl
  rw [htypes] at ha
  obtain ⟨b, hb, hd⟩ := reads_block hs hcolon (ha.drop hw₁) hblock
  exact ⟨e, b, by rw [htypes, hb], hop.derives, hd⟩

omit ha hl hs in
/-- A statement that ends with a block of another header than that of an if. -/
private theorem form_closed {w' : Watch} (htypes : s.types = cs ++ s'.types) (hd : Derives .statement cs)
    (helif : s.current.type ≠ .kwElif) (hw' : w.Sees cs w') (hblocks : w'.blocks = w.blocks)
    (hlast : w'.last = .dedent)
    (hclosed : w'.closed = false) : Form w s s' := by
  refine ⟨cs, htypes, .inl ⟨?_, w', hw', hblocks, ?_, fun hc => ?_⟩⟩
  · rw [if_neg helif]
    exact hd
  · rw [hlast]
    decide
  · rw [hclosed] at hc
    cases hc

private theorem form_while (hwhile : s.current.type = .kwWhile)
    (h : parseWhile fuel (parseExpr fuel) stmt s = .ok n s') : Form w s s' := by
  obtain ⟨s₁, c, b, s₂, h₁, hheader, h₃⟩ := parseWhile_ok hwhile h
  obtain ⟨-, hg⟩ := newNode_ok h₁
  have hcons : s.types = [TokenType.kwWhile] ++ s₁.types := by
    rw [types_cons hwhile (by decide), hg.types_eq]
    rfl
  have hstep : w.Sees [.kwWhile] ⟨.kwWhile, w.blocks, false, false⟩ :=
    sees_cons.mpr ⟨_, step_header hl (by decide), sees_nil.mpr rfl⟩
  have hl₁ : (⟨.kwWhile, w.blocks, false, false⟩ : Watch).last ∉ lineEnds :=
    show TokenType.kwWhile ∉ lineEnds by decide
  rw [hcons] at ha
  obtain ⟨e, b, htypes, he, hb⟩ := reads_header (ha.drop hstep) hl₁ hs hheader
  obtain ⟨w', hw', hblocks, hlast, hclosed⟩ := passes_header he.passes hb.passes hl₁
  refine form_closed ?_ (.whileDo he hb) (by rw [hwhile]; decide)
    (sees_append.mpr ⟨_, hstep, hw'⟩) hblocks hlast hclosed
  rw [hcons, htypes, setNode_types h₃]
  simp

private theorem form_for (hfor : s.current.type = .kwFor)
    (h : parseFor fuel (parseExpr fuel) stmt s = .ok n s') :
    Form w s s' := by
  obtain ⟨hident, hin, s₁, c, b, s₂, h₁, hheader, h₃⟩ := parseFor_ok hfor h
  obtain ⟨-, hg⟩ := leaf_ok h₁
  have hcons : s.types = [TokenType.kwFor, .ident, .kwIn] ++ s₁.types := by
    have hin' : ((s.forward 1).forward 1).current.type = .kwIn := hin
    rw [types_cons hfor (by decide), types_cons hident (by decide), types_cons hin' (by decide), hg.types_eq]
    rfl
  have hstep : w.Sees [.kwFor, .ident, .kwIn] ⟨.kwIn, w.blocks, false, false⟩ :=
    sees_cons.mpr ⟨_, step_header hl (by decide), sees_plain rfl rfl (sees_plain rfl rfl (sees_nil.mpr rfl))⟩
  have hl₁ : (⟨.kwIn, w.blocks, false, false⟩ : Watch).last ∉ lineEnds :=
    show TokenType.kwIn ∉ lineEnds by decide
  rw [hcons] at ha
  obtain ⟨e, b, htypes, he, hb⟩ := reads_header (ha.drop hstep) hl₁ hs hheader
  obtain ⟨w', hw', hblocks, hlast, hclosed⟩ := passes_header he.passes hb.passes hl₁
  refine form_closed ?_ (.forIn he hb) (by rw [hfor]; decide)
    (sees_append.mpr ⟨_, hstep, hw'⟩) hblocks hlast hclosed
  rw [hcons, htypes, setNode_types h₃]
  simp

private theorem form_def (hdef : s.current.type = .kwDef) (h : parseDef fuel stmt s = .ok n s') :
    Form w s s' := by
  obtain ⟨hident, s₁, s₂, body, s₃, h₁, hlparen, hparams, hrparen, hcolon, hblock, hadd⟩ := parseDef_ok hdef h
  obtain ⟨-, hg⟩ := leaf_ok h₁
  obtain ⟨ps, hps, hd⟩ := reads_paramLoop n fuel _ _ _ hparams
  have hcons : s.types = ([TokenType.kwDef, .ident, .lparen] ++ ps ++ [TokenType.rparen]) ++
    (s₂.forward 1).types := by
    rw [types_cons hdef (by decide), types_cons hident (by decide),
      show ((s.forward 1).forward 1).types = (s.forward 2).types from rfl, ← hg.types_eq,
        types_cons hlparen (by decide), hps,
      types_cons hrparen (by decide)]
    simp
  have hstep : w.Sees [.kwDef, .ident, .lparen] ⟨.lparen, w.blocks, false, false⟩ :=
    sees_cons.mpr ⟨_, step_header hl (by decide), sees_plain rfl rfl (sees_plain rfl rfl (sees_nil.mpr rfl))⟩
  obtain ⟨w₁, hw₁, hb₁, hh₁⟩ :=
    hd.passes ⟨.lparen, w.blocks, false, false⟩ (show TokenType.lparen ∉ lineEnds by decide)
  have hhead := (sees_append.mpr ⟨_, hstep, hw₁⟩).snoc (joined_of_notBegins (b := .rparen) (by decide) _) rfl
  rw [hcons] at ha
  obtain ⟨b, htypes, hb⟩ := reads_block hs hcolon (ha.drop hhead) hblock
  obtain ⟨w', hw', hblocks, hlast, hclosed⟩ := hb.passes ⟨.rparen, w₁.blocks, w₁.header, false⟩ trivial
  have hall := sees_append.mpr ⟨_, hhead, hw'⟩
  have hlist : [TokenType.kwDef, .ident, .lparen] ++ ps ++ [TokenType.rparen] ++ b =
        .kwDef :: .ident :: .lparen :: (ps ++ .rparen :: b) := by simp
  rw [hlist] at hall
  refine form_closed ?_ (.define hd hb) (by rw [hdef]; decide) hall (hblocks.trans hb₁) hlast
    (hclosed.trans hh₁)
  rw [hcons, htypes, addChild_types hadd, ← hlist]
  simp

omit ha hl hs in
private theorem derives_chain {kw : TokenType} {e b : List TokenType} (hkw : kw = .kwIf ∨ kw = .kwElif)
    (he : Derives .expr e)
    (hb : Derives .block b) (hcs : Derives .clauses cs) :
    if kw = .kwElif then Derives .clauses (kw :: (e ++ (b ++ cs))) else Derives .statement
      (kw :: (e ++ (b ++ cs))) := by
  rcases hkw with rfl | rfl
  · exact .ifDo he hb hcs
  · exact .elifDo he hb hcs

/-- An if or elif with the clauses that follow it. -/
private theorem form_if (hkw : s.current.type = .kwIf ∨ s.current.type = .kwElif)
    (h : parseIf fuel (parseExpr fuel) stmt s = .ok n s') : Form w s s' := by
  have hne : s.current.type ≠ .eof := by
    rcases hkw with hkw | hkw <;> rw [hkw] <;> decide
  obtain ⟨s₁, c, body, s₂, s₃, h₁, hheader, h₃, hrest⟩ := parseIf_ok hne h
  obtain ⟨-, hg⟩ := newNode_ok h₁
  have hcons : s.types = [s.current.type] ++ s₁.types := by
    rw [types_of_current hne, hg.types_eq]
    rfl
  rw [hcons] at ha
  have hstep : w.Sees [s.current.type] ⟨s.current.type, w.blocks, true, false⟩ := by
    refine sees_cons.mpr ⟨_, ?_, sees_nil.mpr rfl⟩
    rcases hkw with hkw | hkw
    · rw [hkw]
      exact step_if hl
    · obtain ⟨w₁, hw₁, -⟩ := ha.step
      rw [hkw] at hw₁ ⊢
      exact step_elif hl (closed_of_step_elif hw₁)
  have hl₁ : (⟨s.current.type, w.blocks, true, false⟩ : Watch).last ∉ lineEnds := by
    show s.current.type ∉ lineEnds
    rcases hkw with hkw | hkw <;> rw [hkw] <;> decide
  have ha₁ := ha.drop hstep
  obtain ⟨e, b, htypes, he, hb⟩ := reads_header ha₁ hl₁ hs hheader
  obtain ⟨w₂, hw₂, hb₂, hlast₂, hc₂⟩ := passes_header he.passes hb.passes hl₁
  have hsame := setNode_types h₃
  obtain ⟨k, hk⟩ := skipLines_types s₃
  obtain ⟨w₃, hw₃, hb₃, -, hc₃, hl₃⟩ := sees_newlines w₂ k (by rw [hlast₂]; decide)
  rw [htypes, ← List.append_assoc] at ha₁
  have ha₂ := ha₁.drop hw₂
  rw [← hsame, hk] at ha₂
  have ha₃ := ha₂.drop hw₃
  -- the tokens up to the clauses
  have hfront : s.types =
    s.current.type :: (e ++ (b ++ (List.replicate k TokenType.newline ++ s₃.skipLines.types))) := by
    rw [hcons, htypes, ← hsame, hk]
    rfl
  have hsees : ∀ {cs w'}, w₃.Sees cs w' →
      w.Sees (s.current.type :: (e ++ (b ++ (List.replicate k TokenType.newline ++ cs)))) w' := by
    intro cs w' hcs
    have := sees_append.mpr ⟨_, hstep, sees_append.mpr ⟨w₂, hw₂, sees_append.mpr ⟨w₃, hw₃, hcs⟩⟩⟩
    rwa [List.append_assoc] at this
  have hblocks : w₃.blocks = w.blocks := hb₃.trans hb₂
  rcases hrest with ⟨helif, x, s₄, h₄, h₅⟩ | ⟨helse, hcolon, x, s₄, h₄, h₅⟩ | ⟨helif, -, rfl⟩
  · have hend := setNode_types h₅
    obtain ⟨cs, hcs, hfull | ⟨hno, -⟩⟩ := hs.reads w₃ _ _ _ ha₃ hl₃ h₄
    · have hclauses := hfull.derives
      rw [if_pos helif] at hclauses
      obtain ⟨w₄, hw₄, hb₄, hl₄, hc₄⟩ := hfull.goesOn
      rw [current_types, ← hend, ← current_types] at hc₄
      refine ⟨_, ?_, .inl ⟨derives_chain hkw he hb (blank_clauses k hclauses), w₄, hsees hw₄,
        hb₄.trans hblocks, hl₄, hc₄⟩⟩
      rw [hfront, hcs, hend]
      simp
    · exact absurd helif hno
  · have hcons₃ := types_cons helse (by decide)
    have hstep₃ : w₃.Sees [.kwElse] ⟨.kwElse, w₃.blocks, false, false⟩ :=
      sees_cons.mpr ⟨_, step_header hl₃ (by decide), sees_nil.mpr rfl⟩
    have ha₄ : Ahead w₃ ([TokenType.kwElse] ++ (s₃.skipLines.forward 1).types) := by
      rw [hcons₃] at ha₃
      exact ha₃
    obtain ⟨b', hb', hd'⟩ := reads_block hs hcolon (ha₄.drop hstep₃) h₄
    obtain ⟨w₄, hw₄, hb₄, hlast₄, hc₄⟩ := hd'.passes ⟨.kwElse, w₃.blocks, false, false⟩ trivial
    refine ⟨_, ?_, .inl ⟨derives_chain hkw he hb (blank_clauses k (.elseDo hd')), w₄,
      hsees (sees_append.mpr ⟨_, hstep₃, hw₄⟩), hb₄.trans hblocks, by rw [hlast₄]; decide, fun hc => ?_⟩⟩
    · rw [hfront, hcons₃, hb', setNode_types h₅]
      simp
    · exact absurd (hc₄.symm.trans hc) Bool.false_ne_true
  · refine ⟨_, ?_, .inl ⟨derives_chain hkw he hb (blank_clauses k .noClause), w₃,
      hsees (sees_nil.mpr rfl), hblocks, hl₃,
      fun _ => ⟨helif, skipLines_current s₃⟩⟩⟩
    rw [hfront]
    simp

end forms

/-- The parser of statements. -/
theorem stmtReads_parseStmt (fuel : Nat) : StmtReads (parseStmt fuel) := by
  induction fuel with
  | zero =>
    constructor
    · intro s n s' h
      cases h
    · intro w s n s' _ _ h
      cases h
  | succ fuel ih =>
    constructor
    · intro s n s' h
      rcases parseStmt_ok h with ⟨ht, -⟩ | ⟨ht, -⟩ | ⟨ht, -⟩ | ⟨ht, -⟩ | ⟨ht | ht, -⟩ | ⟨ht, -⟩ | ⟨ht,
        -⟩ | ⟨ht, -⟩ | h
      case inr.inr.inr.inr.inr.inr.inr.inr => exact (exprStmt_begins h).1
      all_goals
        rw [ht]
        decide
    · intro w s n s' ha hl h
      rcases parseStmt_ok h with ⟨ht, h⟩ | ⟨ht, h⟩ | ⟨ht, h⟩ | ⟨ht, h⟩ | ⟨ht, h⟩ | ⟨ht, h⟩ | ⟨ht,
        h⟩ | ⟨ht, ht', h⟩ | h
      · exact form_return ha hl ht h
      · exact form_jump hl (.inl ht) h
      · exact form_jump hl (.inr ht) h
      · exact form_def ha hl ih ht h
      · exact form_if ha hl ih ht h
      · exact form_while ha hl ih ht h
      · exact form_for ha hl ih ht h
      · exact form_assign hl ht ht' h
      · exact form_exprStmt hl (exprStmt_begins h).2 h

/-! What the lexer promises. -/

private theorem lined_free {a : TokenType} {ts : List TokenType} (ha : a ≠ .eof) (hi : a.inline = false)
    (hne : ts ≠ [])
    (h : Lined ts) : Lined (a :: ts) := by
  cases ts with
  | nil => exact absurd rfl hne
  | cons b ts => exact ⟨ha, fun hin => absurd (hi.symm.trans hin) Bool.false_ne_true, h⟩

private theorem lined_brackets {l ts : List TokenType} (hl : ∀ a ∈ l, a = .indent ∨ a = .dedent)
    (hne : ts ≠ []) (h : Lined ts) :
    Lined (l ++ ts) := by
  induction l with
  | nil => exact h
  | cons a l ih =>
    obtain ⟨ha, hl⟩ := List.forall_mem_cons.mp hl
    apply lined_free _ _ (by simp [hne]) (ih hl)
    · rcases ha with rfl | rfl <;> decide
    · rcases ha with rfl | rfl <;> rfl

private theorem lined_line {us ts : List TokenType} (hus : ∀ a ∈ us, a.inline = true) (hne : ts ≠ [])
    (h : Lined ts) :
    Lined (us ++ .newline :: ts) := by
  induction us with
  | nil => exact lined_free (by decide) rfl hne h
  | cons a us ih =>
    obtain ⟨ha, hus⟩ := List.forall_mem_cons.mp hus
    have haeof : a ≠ .eof := by
      rintro rfl
      cases ha
    cases us with
    | nil => exact ⟨haeof, fun _ => .inr rfl, ih hus⟩
    | cons b us => exact ⟨haeof, fun _ => .inl (hus b List.mem_cons_self), ih hus⟩

namespace Unlimited

private theorem lineLoop_lined {fuel line : Nat} {stack : List Nat} {src : List UInt8} {ts : List Token}
    (h : lineLoop fuel line stack src = some ts) : ts ≠ [] ∧ Lined (ts.map (·.type)) := by
  have hend : ∀ (line : Nat) (stack : List Nat),
      Lined ((closeIndents line stack ++ [(⟨.eof, 0, [], line⟩ : Token)]).map (·.type)) := by
    intro line stack
    rw [List.map_append]
    refine lined_brackets (fun a ha => ?_) (by simp) rfl
    obtain ⟨tok, htok, rfl⟩ := List.mem_map.mp ha
    exact .inr (closeIndents_type tok htok)
  induction fuel generalizing line stack src ts with
  | zero =>
    obtain rfl | ⟨_, _, _, hfuel, _⟩ := lineLoop_cases h
    · exact ⟨by simp, hend _ _⟩
    · cases hfuel
  | succ fuel ih =>
    obtain rfl | ⟨_, line', rest, hfuel, h | ⟨indent, us, vs, hus, hvs, rfl⟩⟩ := lineLoop_cases h
    · exact ⟨by simp, hend _ _⟩
    · cases hfuel
      exact ih h
    · cases hfuel
      obtain ⟨hne, hlined⟩ := ih hvs
      refine ⟨by simp, ?_⟩
      have hline : Lined (us.map (·.type) ++ .newline :: vs.map (·.type)) := by
        refine lined_line (fun a ha => ?_) (by simpa using hne) hlined
        obtain ⟨tok, htok, rfl⟩ := List.mem_map.mp ha
        exact hus tok htok
      rw [List.append_assoc, List.map_append, List.map_append]
      refine lined_brackets (fun a ha => ?_) (by simp) hline
      obtain ⟨tok, htok, rfl⟩ := List.mem_map.mp ha
      exact setIndent_type tok htok

end Unlimited

private theorem Brackets.tail {d d' : Nat} {t : Token} {ts : List Token} (h : Brackets d (t :: ts) d') :
    closes [t] ≤ d + opens [t] ∧ Brackets (d + opens [t] - closes [t]) ts d' := by
  have ho : ∀ ts, opens ([t] ++ ts) = opens [t] + opens ts := fun _ => List.countP_append
  have hc : ∀ ts, closes ([t] ++ ts) = closes [t] + closes ts := fun _ => List.countP_append
  have hfirst := h.within [t] (by simp)
  have htotal := h.total
  rw [← List.singleton_append, ho, hc] at htotal
  refine ⟨hfirst, by omega, fun p hp => ?_⟩
  have hin := h.within (t :: p) (List.cons_prefix_cons.mpr ⟨rfl, hp⟩)
  rw [← List.singleton_append, ho, hc] at hin
  omega

private theorem blocks_brackets {w w' : Watch} {ts : List Token} {d : Nat} (hb : Brackets w.blocks.length ts d)
    (h : w.Sees (ts.map (·.type)) w') : w'.blocks.length = d := by
  induction ts generalizing w with
  | nil =>
    rw [← sees_nil.mp h]
    exact hb.total
  | cons t ts ih =>
    obtain ⟨w₁, hstep, hrest⟩ := sees_cons.mp h
    obtain ⟨-, htail⟩ := hb.tail
    refine ih ?_ hrest
    have hlength : w₁.blocks.length = w.blocks.length + opens [t] - closes [t] := by
      rw [step_blocks hstep]
      by_cases hi : t.type = .indent
      · simp [hi, opens, closes]
      · by_cases hd : t.type = .dedent
        · simp [hd, opens, closes]
        · simp [hi, hd, opens, closes]
    rwa [hlength]

/-- What is lexed and parsed is a program of the grammar exactly when each line
holds one statement and each elif follows the block of an if or elif. -/
theorem accepted_derives_iff {src : List UInt8} {s'' : Run} (hlex : gkLex src s = .ok () s')
    (hparse : gkParse s' = .ok n s'') :
    Derives .program s'.tokenTypes ↔ watched s'.tokenTypes = true := by
  rw [watched_iff]
  constructor
  · intro h
    obtain ⟨w, hw, -⟩ := h.passes Watch.start (show TokenType.newline ∉ lineEnds by decide)
    exact ⟨w, hw⟩
  · rintro ⟨w, hw⟩
    obtain ⟨-, ⟨us, line, htokens, -⟩, ⟨hwithin, htotal⟩, hunlimited⟩ := gkLex_complete hlex
    have hbrackets : Brackets 0 s'.tokens 0 := ⟨by simpa using htotal, by simpa using hwithin⟩
    have hclosed : w.blocks = [] := List.length_eq_zero_iff.mp (blocks_brackets (w := Watch.start) hbrackets hw)
    have hahead : Ahead Watch.start s'.tokenTypes := ⟨(Unlimited.lineLoop_lined hunlimited).2, w, hw, hclosed⟩
    obtain ⟨s₁, h₁, hloop⟩ := gkParse_ok hparse
    obtain ⟨-, hg⟩ := newNode_ok h₁
    have htypes : s₁.types = s'.tokenTypes := hg.types_eq
    obtain ⟨k, hk⟩ := skipLines_types s₁
    obtain ⟨w₁, hw₁, -, -, hc₁, hl₁⟩ :=
      sees_newlines Watch.start k (show TokenType.newline ∉ lineEnds by decide)
    rw [← htypes, hk] at hahead
    have hnone : w₁.closed = true → s₁.skipLines.current.type ≠ .kwElif := by
      rw [hc₁]
      nofun
    obtain ⟨ss, hss, hd, hend⟩ :=
      reads_stmtLoop (stmtReads_parseStmt _) (by simp) (hahead.drop hw₁) hl₁ hnone hloop
    have hall : s'.tokenTypes = List.replicate k TokenType.newline ++ ss ++ s''.types := by
      rw [← htypes, hk, hss, List.append_assoc]
    have hprogram := blank_statements k hd
    rw [hss, ← List.append_assoc] at hahead
    -- the last token is EOF, which is none of the statements
    rcases hahead.lined.of_append.eof_last
      (by rw [← current_types]; exact List.mem_singleton.mp hend) with hnil | heof
    · obtain ⟨w₂, hw₂, -, hlast⟩ := hprogram.passes Watch.start (show TokenType.newline ∉ lineEnds by decide)
      have hsnoc : List.replicate k TokenType.newline ++ ss = us.map (·.type) ++ [TokenType.eof] := by
        rw [hnil, List.append_nil] at hall
        rw [← hall, Run.tokenTypes, htokens, List.map_append]
        rfl
      rw [hsnoc] at hw₂
      have := hw₂.last_eq
      rcases hlast with hlast | hlast | hlast <;> rw [this] at hlast <;> cases hlast
    · rw [hall, heof]
      exact .program hprogram

/-- An if with an elif. -/
theorem accepted_derives_iff_elif :
    Derives .program (final
      (gkLex (ascii "if x:\n  y = 1\nelif z:\n  y = 2\n") (freshState []).start)).tokenTypes := by
  have hlex : gkLex (ascii "if x:\n  y = 1\nelif z:\n  y = 2\n") (freshState []).start =
      .ok () (final (gkLex (ascii "if x:\n  y = 1\nelif z:\n  y = 2\n") (freshState []).start)) := by
        decide +kernel
  have hparse : gkParse (final (gkLex (ascii "if x:\n  y = 1\nelif z:\n  y = 2\n") (freshState []).start)) =
      .ok 0
        (final
        (gkParse (final (gkLex (ascii "if x:\n  y = 1\nelif z:\n  y = 2\n") (freshState []).start)))) := by
    decide +kernel
  exact (accepted_derives_iff hlex hparse).mpr (by decide +kernel)

/-- Two assignments on one line are accepted. -/
theorem joined_assignments_accepted :
    ¬ ∀ (src : List UInt8) (s s' s'' : Run) (n : Nat), gkLex src s = .ok () s' → gkParse s' = .ok n s'' →
      Derives .program s'.tokenTypes := by
  intro hall
  have hlex : gkLex (ascii "x = 1 y = 2\n") (freshState []).start =
      .ok () (final (gkLex (ascii "x = 1 y = 2\n") (freshState []).start)) := by decide +kernel
  have hparse : gkParse (final (gkLex (ascii "x = 1 y = 2\n") (freshState []).start)) =
      .ok 0 (final (gkParse (final (gkLex (ascii "x = 1 y = 2\n") (freshState []).start)))) := by decide +kernel
  obtain ⟨w, hw, -⟩ := (hall _ _ _ _ _ hlex hparse).passes Watch.start
    (show TokenType.newline ∉ lineEnds by decide)
  have hstops : watched (final (gkLex (ascii "x = 1 y = 2\n") (freshState []).start)).tokenTypes =
    false := by decide +kernel
  rw [watched_iff.mpr ⟨w, hw⟩] at hstops
  cases hstops

end GeckoOS.Gk
