import GeckoOS.Gk.StmtRoundTrip
import GeckoOS.Gk.Whitespace
import GeckoOS.Gk.IntText

/-! Programs written as indented text, which the lexer turns into their tokens. -/
namespace GeckoOS.Gk
open Lib

/-! ### How tokens are written -/

/-- A token type without a value, by the tables of the lexer. -/
def symbolText (t : TokenType) : List UInt8 :=
  match keywords.find? fun k => k.2 = t with
  | some k => k.1
  | none =>
    match doubles.find? fun d => d.2 = t with
    | some d => [d.1, '='.toUInt8]
    | none => ((singles.find? fun d => d.2 = t).map fun d => d.1).toList

def Shape.text : Shape → List UInt8
  | .int v => digitText v.toNat
  | .str s => 34 :: s.flatMap (escape 34) ++ [34]
  | .name s => s
  | .symbol t => symbolText t

/-- Names are words and no keywords, numbers have no sign, and each has room in its buffer. -/
def Shape.Spelt : Shape → Prop
  | .int v => 0 ≤ v ∧ v < 2^31
  | .str s => 0 ∉ s ∧ s.length ≤ 255
  | .name s => isAlpha (s.headD 0) = true ∧ (∀ c ∈ s.tail, isAlnum c = true) ∧ s.length ≤ 63 ∧
    wordType s = .ident
  | .symbol t => symbolText t ≠ []

instance Shape.decSpelt : (sh : Shape) → Decidable sh.Spelt
  | .int _ | .str _ => inferInstanceAs (Decidable (_ ∧ _))
  | .name _ => inferInstanceAs (Decidable (_ ∧ _ ∧ _ ∧ _))
  | .symbol _ => inferInstanceAs (Decidable (_ ≠ _))

private theorem keyword_words : ∀ k ∈ keywords, k.1 ≠ [] ∧ isAlpha (k.1.headD 0) = true ∧
    (∀ d ∈ k.1.tail, isAlnum d = true) ∧ k.1.length ≤ 63 ∧ wordType k.1 = k.2 := by
  decide +kernel

theorem symbolText_values : symbolText .int = [] ∧ symbolText .str = [] ∧ symbolText .ident = [] := by
  decide +kernel

/-- Keywords are words, and the other tokens of this kind are operators. -/
theorem symbol_written {t : TokenType} (h : symbolText t ≠ []) :
    ∃ w : Written, w.print = symbolText t ∧ w.Fits ∧ w.token.type = t := by
  unfold symbolText at h ⊢
  cases hk : keywords.find? fun k => k.2 = t with
  | some k =>
    obtain ⟨word, ty⟩ := k
    obtain ⟨hne, hfirst, hrest, hlen, hword⟩ := keyword_words _ (List.mem_of_find?_eq_some hk)
    obtain ⟨c, cs, rfl⟩ := List.exists_cons_of_ne_nil hne
    obtain rfl : ty = t := by simpa using List.find?_some hk
    exact ⟨.word c cs hfirst hrest, rfl, hlen, hword⟩
  | none =>
    simp only [hk] at h ⊢
    cases hd : doubles.find? fun d => d.2 = t with
    | some d =>
      obtain ⟨c, ty⟩ := d
      obtain rfl : ty = t := by simpa using List.find?_some hd
      exact ⟨.double c ty (List.mem_of_find?_eq_some hd), rfl, trivial, rfl⟩
    | none =>
      simp only [hd] at h ⊢
      cases hs : singles.find? fun d => d.2 = t with
      | some d =>
        obtain ⟨c, ty⟩ := d
        obtain rfl : ty = t := by simpa using List.find?_some hs
        exact ⟨.single c ty (List.mem_of_find?_eq_some hs), rfl, trivial, rfl⟩
      | none => exact absurd (by rw [hs]; rfl) h

/-- What can be spelt is read as it was meant. -/
theorem Shape.Spelt.written {sh : Shape} (h : sh.Spelt) :
    ∃ w : Written, w.print = sh.text ∧ w.Fits ∧ w.token.shape = sh := by
  cases sh with
  | int v =>
    obtain ⟨hlo, hhi⟩ := h
    obtain ⟨hdigits, hval⟩ := digitText_digits v.toNat
    have hv : decimal (digitText v.toNat) = v := by
      rw [hval]
      exact Int.toNat_of_nonneg hlo
    refine ⟨.int (digitText v.toNat) (digitText_ne_nil _) hdigits, rfl, ?_, ?_⟩
    · rw [Written.Fits, hv]
      exact hhi
    · rw [Written.token, hv]
      rfl
  | str s => exact ⟨.str 34 s (by decide) h.1, rfl, h.2, rfl⟩
  | name s =>
    obtain ⟨hc, hcs, hlen, hword⟩ := h
    cases s with
    | nil => exact absurd hc (by decide)
    | cons c cs =>
      refine ⟨.word c cs hc hcs, rfl, hlen, ?_⟩
      show Token.shape ⟨wordType (c :: cs), 0, c :: cs, 1⟩ = _
      rw [hword]
      rfl
  | symbol t =>
    obtain ⟨w, hprint, hfit, htype⟩ := symbol_written h
    obtain ⟨hint, hstr, hident⟩ := symbolText_values
    refine ⟨w, hprint, hfit, ?_⟩
    rw [Token.shape, htype]
    cases t with
    | int => exact absurd hint h
    | str => exact absurd hstr h
    | ident => exact absurd hident h
    | _ => rfl

/-! ### Lines -/

/-- A line of the source: how deep it stands, and its tokens. -/
abbrev SourceLine := Nat × List Shape

/-- Each token is followed by a space. -/
def tokensText (shapes : List Shape) : List UInt8 := shapes.flatMap fun sh => sh.text ++ [' '.toUInt8]

def lineText (l : SourceLine) : List UInt8 :=
  List.replicate (4 * l.1) ' '.toUInt8 ++ (tokensText l.2 ++ ['\n'.toUInt8])

def sourceText (ls : List SourceLine) : List UInt8 := ls.flatMap lineText

variable {sh : Shape} {shapes : List Shape} {l : SourceLine} {ls rest : List SourceLine}
  {src : List UInt8} {s s' : Run} {d : Nat}

/-- The lexemes of a line that has these tokens. -/
inductive Lexes : List Lexeme → List Shape → Prop
  | nil : Lexes [] []
  | space {lexs : List Lexeme} {shapes : List Shape} (h : Lexes lexs shapes) : Lexes (.nothing :: lexs) shapes
  | token {lex : Lexeme} {t : Token} {lexs : List Lexeme} {shapes : List Shape} (ht : lex.token 0 = some t)
      (h : Lexes lexs shapes) : Lexes (lex :: lexs) (t.shape :: shapes)

/-- The first byte of a token, and what the lexer makes of the token in front of a space. -/
theorem Shape.Spelt.lexeme (h : sh.Spelt) (tail : List UInt8) :
    ∃ c cs lex t, sh.text = c :: cs ∧ (¬ isSpace c = true ∧ c ≠ '#'.toUInt8 ∧ c ≠ '\n'.toUInt8) ∧
      Gk.lexeme c (cs ++ ' '.toUInt8 :: tail) = (lex, ' '.toUInt8 :: tail) ∧ lex.token 0 = some t ∧
        t.shape = sh := by
  obtain ⟨w, hprint, hfit, hshape⟩ := h.written
  obtain ⟨c, cs, lex, hcs, hc, hlex, htoken⟩ := lexeme_written hfit (.inr rfl : Ends (' '.toUInt8 :: tail))
  exact ⟨c, cs, lex, _, hprint.symm.trans hcs, hc, hlex, htoken 0, hshape⟩

theorem lexemes_tokensText (hspelt : ∀ sh ∈ shapes, sh.Spelt) (src : List UInt8) :
    ∃ lexs, Lexes lexs shapes ∧ lexemes (tokensText shapes ++ '\n'.toUInt8 :: src).length
      (tokensText shapes ++ '\n'.toUInt8 :: src) = (lexs, '\n'.toUInt8 :: src) := by
  induction shapes with
  | nil => exact ⟨[], .nil, lexemes_newline _ src⟩
  | cons sh shapes ih =>
    obtain ⟨hsh, hshapes⟩ := List.forall_mem_cons.mp hspelt
    obtain ⟨lexs, hlexs, hrest⟩ := ih hshapes
    generalize hline : tokensText shapes ++ '\n'.toUInt8 :: src = line at hrest
    obtain ⟨c, cs, lex, t, hcs, hc, hlex, ht, rfl⟩ := hsh.lexeme line
    have htext : tokensText (t.shape :: shapes) ++ '\n'.toUInt8 :: src = c :: (cs ++ ' '.toUInt8 :: line) := by
      rw [tokensText, List.flatMap_cons, ← tokensText, hcs, ← hline]
      simp
    have hspace : Gk.lexeme ' '.toUInt8 line = (.nothing, line) := by rw [Gk.lexeme, if_pos (by decide)]
    have hend : lineEnd line = '\n'.toUInt8 :: src := congrArg Prod.snd hrest
    refine ⟨lex :: .nothing :: lexs, .token ht (.space hlexs), ?_⟩
    rw [htext, lexemes_cons hc.2.2, hlex, lexemes_cons (by decide), hspace, hrest,
      lineEnd_cons (by decide), hspace, hend]

theorem tokensText_head (hspelt : ∀ sh ∈ shapes, sh.Spelt) (hne : shapes ≠ []) :
    ∃ c cs, tokensText shapes = c :: cs ∧ ¬ isSpace c = true ∧ c ≠ '#'.toUInt8 ∧ c ≠ '\n'.toUInt8 := by
  obtain ⟨sh, shapes, rfl⟩ := List.exists_cons_of_ne_nil hne
  obtain ⟨c, cs, -, -, hcs, hc, -⟩ := (hspelt sh List.mem_cons_self).lexeme []
  refine ⟨c, cs ++ ' '.toUInt8 :: tokensText shapes, ?_, hc⟩
  rw [tokensText, List.flatMap_cons, ← tokensText, hcs]
  simp

/-- A line comes off the front of a source. -/
theorem lines_lineText (hspelt : ∀ sh ∈ l.2, sh.Spelt) (hne : l.2 ≠ []) (src : List UInt8) :
    ∃ lexs, Lexes lexs l.2 ∧ lines (lineText l ++ src) = ⟨4 * l.1, lexs⟩ :: lines src := by
  obtain ⟨lexs, hlexs, hline⟩ := lexemes_tokensText hspelt src
  obtain ⟨c, cs, hcs, hspace, hhash, hnl⟩ := tokensText_head hspelt hne
  have htext : lineText l ++ src = List.replicate (4 * l.1) ' '.toUInt8 ++
      (List.replicate 0 '\t'.toUInt8 ++ (tokensText l.2 ++ '\n'.toUInt8 :: src)) := by
    rw [lineText]
    simp
  have hhead : (tokensText l.2 ++ '\n'.toUInt8 :: src).head? = some c := by
    rw [hcs]
    rfl
  have hc : c ≠ ' '.toUInt8 ∧ c ≠ '\t'.toUInt8 := by
    constructor
    · rintro rfl
      exact hspace (by decide)
    · rintro rfl
      exact hspace (by decide)
  have htab : (tokensText l.2 ++ '\n'.toUInt8 :: src).head? ≠ some '\t'.toUInt8 := by
    rw [hhead]
    exact fun h => hc.2 (Option.some.inj h)
  have hblanks : (tokensText l.2 ++ '\n'.toUInt8 :: src).head? ≠ some ' '.toUInt8 := by
    rw [hhead]
    exact fun h => hc.1 (Option.some.inj h)
  obtain ⟨hwidth, hbody⟩ := measure_replicate (j := 0) (4 * l.1) htab fun _ => hblanks
  rw [← htext] at hwidth hbody
  have hblank : ¬ Blank (lineText l ++ src) := by
    rw [Blank, hbody, hcs, List.cons_append, List.headD_cons]
    simp [hhash, hnl]
  have hend : (lineEnd (lineText l ++ src)).tail = src := by
    rw [← lineEnd_body, hbody, lineEnd, hline]
    rfl
  refine ⟨lexs, hlexs, ?_⟩
  rw [lines_eq, firstLine, if_neg hblank, hbody, hline, hwidth, hend, Nat.mul_zero, Nat.add_zero]
  rfl

/-! ### Tokens that are added -/

/-- The program returns `a` and adds tokens of these shapes. -/
def Adds {α : Type} (p : GkM α) (a : α) (shapes : List Shape) : Prop :=
  ∀ s : Run, s.tokens.length + shapes.length ≤ maxTokens →
    ∃ ts, ts.map Token.shape = shapes ∧ p s = .ok a { s with tokens := s.tokens ++ ts }

namespace Adds
variable {α β : Type} {p : GkM α} {k : α → GkM β} {a : α} {b : β} {shapes' : List Shape}

protected theorem pure (a : α) : Adds (pure a : GkM α) a [] := fun s _ => ⟨[], rfl, by simp⟩

protected theorem bind (hp : Adds p a shapes) (hk : Adds (k a) b shapes') :
    Adds (p >>= k) b (shapes ++ shapes') := by
  intro s hroom
  rw [List.length_append] at hroom
  obtain ⟨ts, hts, hrun⟩ := hp s (by omega)
  have hlen : ts.length = shapes.length := by rw [← hts, List.length_map]
  obtain ⟨ts', hts', hrun'⟩ := hk { s with tokens := s.tokens ++ ts } (by rw [List.length_append, hlen]; omega)
  refine ⟨ts ++ ts', by rw [List.map_append, hts, hts'], ?_⟩
  rw [bind_ok hrun, hrun']
  simp only [List.append_assoc]

theorem emit {t : TokenType} (ht : (Shape.symbol t).token.shape = .symbol t) :
    Adds (orFail (emit t 0)) () [.symbol t] := by
  intro s hroom
  have hroom : ¬ maxTokens ≤ s.tokens.length := by
    rw [List.length_singleton] at hroom
    omega
  exact ⟨[(Shape.symbol t).token], by rw [List.map_singleton, ht], (orFail_emit _ s).trans (if_neg hroom)⟩

theorem emitAll {lexs : List Lexeme} (h : Lexes lexs shapes) : Adds (emitAll lexs) () shapes := by
  induction h with
  | nil => exact .pure ()
  | space _ ih => exact ih
  | @token lex t lexs shapes ht _ ih =>
    have hlex : Adds (emitLexeme 0 lex) () [t.shape] := fun s hroom => by
      rw [List.length_singleton] at hroom
      exact ⟨[t], rfl, emitLexeme_room ht (by omega)⟩
    exact hlex.bind ih

end Adds

/-! ### The layout of lines -/

/-- The tokens of lines behind one of the depth `d`: those for the change of the
depth stand in front of a line's own. -/
def layout : Nat → List SourceLine → List Shape
  | d, [] => List.replicate d (.symbol .dedent) ++ [.symbol .eof]
  | d, (w, shapes) :: ls =>
    (if d < w then [.symbol .indent] else List.replicate (d - w) (.symbol .dedent)) ++
      (inLine shapes ++ layout w ls)

/-- No line stands deeper than one level below the line in front of it. -/
def Stepwise : Nat → List SourceLine → Prop
  | _, [] => True
  | d, (w, _) :: ls => w ≤ d + 1 ∧ Stepwise w ls

/-- The indentation stack at a depth. -/
def stackAt : Nat → List Nat
  | 0 => [0]
  | d+1 => 4 * (d + 1) :: stackAt d

theorem stackAt_head (d : Nat) : (stackAt d).headD 0 = 4 * d := by
  cases d <;> rfl

theorem stackAt_length (d : Nat) : (stackAt d).length = d + 1 := by
  induction d with
  | zero => rfl
  | succ d ih => rw [stackAt, List.length_cons, ih]

theorem popIndents_stackAt (d w : Nat) (hle : w ≤ d) :
    Adds (popIndents (4 * w) 0 (stackAt d)) (stackAt w) (List.replicate (d - w) (.symbol .dedent)) := by
  induction d with
  | zero =>
    obtain rfl := Nat.le_zero.mp hle
    exact .pure _
  | succ d ih =>
    rw [stackAt, popIndents]
    obtain rfl | hlt := Nat.eq_or_lt_of_le hle
    · rw [if_neg (Nat.lt_irrefl _), Nat.sub_self]
      exact .pure _
    · have hcount : d + 1 - w = d - w + 1 := by omega
      rw [if_pos (by omega), hcount, List.replicate_succ]
      exact (Adds.emit rfl).bind (ih (by omega))

theorem setIndent_stackAt {d w : Nat} (hstep : w ≤ d + 1) (hdeep : w < maxIndent) :
    Adds (setIndent (4 * w) 0 (stackAt d)) (stackAt w)
      (if d < w then [.symbol .indent] else List.replicate (d - w) (.symbol .dedent)) := by
  obtain hlt | hle := Nat.lt_or_ge d w
  · obtain rfl : w = d + 1 := by omega
    rw [if_pos hlt, setIndent_push (by rw [stackAt_head]; omega) (by rw [stackAt_length]; exact hdeep)]
    exact (Adds.emit rfl).bind (Adds.pure _)
  · have hpop : ¬ (stackAt d).headD 0 < 4 * w := by
      rw [stackAt_head]
      omega
    rw [if_neg (by omega), setIndent]
    simp only [if_neg hpop]
    exact popIndents_stackAt d w hle

theorem closeIndents_stackAt (d : Nat) :
    Adds (closeIndents 0 (stackAt d)) () (List.replicate d (.symbol .dedent)) := by
  induction d with
  | zero => exact .pure ()
  | succ d ih =>
    have hclose : closeIndents 0 (stackAt (d + 1)) = (do
        orFail (emit .dedent 0)
        closeIndents 0 (stackAt d)) := by
      cases d <;> rfl
    rw [hclose, List.replicate_succ]
    exact (Adds.emit rfl).bind ih

/-- What the lexer needs to know of a line. -/
structure SourceLine.Ok (l : SourceLine) : Prop where
  shallow : l.1 < maxIndent
  filled : l.2 ≠ []
  spelt : ∀ sh ∈ l.2, sh.Spelt

theorem lexLines_layout (hok : ∀ l ∈ ls, SourceLine.Ok l) (hstep : Stepwise d ls) :
    Adds (lexLines (stackAt d) (lines (sourceText ls))) () (layout d ls) := by
  induction ls generalizing d with
  | nil => exact (closeIndents_stackAt d).bind (Adds.emit rfl)
  | cons l ls ih =>
    obtain ⟨hl, hls⟩ := List.forall_mem_cons.mp hok
    obtain ⟨lexs, hlexs, hlines⟩ := lines_lineText hl.spelt hl.filled (sourceText ls)
    have htext : sourceText (l :: ls) = lineText l ++ sourceText ls := List.flatMap_cons
    rw [htext, hlines, lexLines, layout, inLine, List.append_assoc]
    exact (setIndent_stackAt hstep.1 hl.shallow).bind
      ((Adds.emitAll hlexs).bind ((Adds.emit rfl).bind (ih hls hstep.2)))

/-- The lexer reads the tokens of a text that is laid out so. -/
theorem gkLex_sourceText (hok : ∀ l ∈ ls, SourceLine.Ok l) (hstep : Stepwise 0 ls)
    (hroom : (layout 0 ls).length ≤ maxTokens)
    (s : Run) : ∃ s', gkLex (sourceText ls) s = .ok () s' ∧ s'.tokens.map Token.shape = layout 0 ls ∧
      { s' with tokens := s.tokens, tokPos := s.tokPos } = s := by
  obtain ⟨ts, hts, hrun⟩ :=
    lexLines_layout hok hstep { s.unlined with tokens := [], tokPos := 0 } (by simpa using hroom)
  have houtcome : lexOutcome (sourceText ls) s = .ok () { s.unlined with tokens := ts, tokPos := 0 } :=
    (lexOutcome_eq (sourceText ls) s).trans hrun
  rw [lexOutcome] at houtcome
  cases hlex : gkLex (sourceText ls) s with
  | error e s' =>
    rw [hlex] at houtcome
    cases houtcome
  | ok u s' =>
    rw [hlex] at houtcome
    have hrun : s'.unlined = { s.unlined with tokens := ts, tokPos := 0 } := (EStateM.Result.ok.inj houtcome).2
    have htokens : s'.tokens.map Token.unlined = ts := congrArg (fun r : Run => r.tokens) hrun
    have hframe := congrArg (fun r : Run => ({ r with tokens := s.tokens, tokPos := s.tokPos } : Run)) hrun
    refine ⟨s', rfl, ?_, hframe⟩
    rw [← hts, ← htokens, List.map_map]
    rfl

/-! ### Programs -/

/-- The line of an `else`. -/
def branchLine (els : Stmt) (d : Nat) : List SourceLine :=
  if els.isBlock then [(d, [.symbol .kwElse, .symbol .colon])] else []

mutual
/-- The lines of a statement at a depth; those of a block stand one level deeper. -/
def Stmt.linesAt : Stmt → TokenType → Nat → List SourceLine
  | .expr e, _, d => [(d, e.print 5)]
  | .assign name e, _, d => [(d, .name name :: .symbol .assign :: e.print 5)]
  | .ret none, _, d => [(d, [.symbol .kwReturn])]
  | .ret (some e), _, d => [(d, .symbol .kwReturn :: e.print 5)]
  | .brk, _, d => [(d, [.symbol .kwBreak])]
  | .cont, _, d => [(d, [.symbol .kwContinue])]
  | .define name params body, _, d =>
    (d, .symbol .kwDef :: .name name :: (inParens (printParams params) ++ [.symbol .colon])) ::
      body.linesAt .kwIf d
  | .ite cond body, word, d => (d, .symbol word :: (cond.print 5 ++ [.symbol .colon])) :: body.linesAt .kwIf d
  | .iteElse cond body els, word, d => (d, .symbol word :: (cond.print 5 ++ [.symbol .colon])) ::
    (body.linesAt .kwIf d ++ (branchLine els d ++ els.linesAt .kwElif d))
  | .loop cond body, _, d => (d, .symbol .kwWhile :: (cond.print 5 ++ [.symbol .colon])) :: body.linesAt .kwIf d
  | .forIn name iter body, _, d =>
    (d, .symbol .kwFor :: .name name :: .symbol .kwIn :: (iter.print 5 ++ [.symbol .colon])) ::
      body.linesAt .kwIf d
  | .block sts, _, d => allLines sts (d + 1)

def allLines : List Stmt → Nat → List SourceLine
  | [], _ => []
  | st :: sts, d => st.linesAt .kwIf d ++ allLines sts d
end

mutual
/-- No block is empty. -/
def Stmt.filled : Stmt → Bool
  | .define _ _ body | .ite _ body | .loop _ body | .forIn _ _ body => body.filled
  | .iteElse _ body els => body.filled && els.filled
  | .block sts => !sts.isEmpty && allFilled sts
  | .expr _ | .assign _ _ | .ret _ | .brk | .cont => true

def allFilled : List Stmt → Bool
  | [] => true
  | st :: sts => st.filled && allFilled sts
end

/-- The text of a program. -/
def programText (sts : List Stmt) : List UInt8 := sourceText (allLines sts 0)

/-- The next line stands no deeper. -/
def Under (d : Nat) (ls : List SourceLine) : Prop := ∀ l ∈ ls.head?, l.1 ≤ d

theorem Stepwise.deeper {d' : Nat} (h : Stepwise d ls) (hunder : Under d ls) (hle : d ≤ d') :
    Stepwise d' ls := by
  cases ls with
  | nil => trivial
  | cons l ls => exact ⟨(hunder l rfl).trans (by omega), h.2⟩

theorem layout_dedent (hunder : Under d ls) : layout (d + 1) ls = .symbol .dedent :: layout d ls := by
  cases ls with
  | nil => rfl
  | cons l ls =>
    obtain ⟨w, shapes⟩ := l
    have hle : w ≤ d := hunder _ rfl
    have hcount : d + 1 - w = d - w + 1 := by omega
    rw [layout, layout, if_neg (by omega), if_neg (by omega), hcount, List.replicate_succ, List.cons_append]

/-- At the depth `d` these lines have these tokens. -/
def Lays (d : Nat) (ls : List SourceLine) (shapes : List Shape) : Prop :=
  ∀ rest, Under d rest → Stepwise d rest →
    layout d (ls ++ rest) = shapes ++ layout d rest ∧ Stepwise d (ls ++ rest)

namespace Lays
variable {ls' : List SourceLine} {shapes' line : List Shape}

theorem nil (d : Nat) : Lays d [] [] := fun _ _ hstep => ⟨rfl, hstep⟩

theorem cons (h : Lays d ls shapes) (line : List Shape) : Lays d ((d, line) :: ls) (inLine line ++ shapes) := by
  intro rest hunder hstep
  obtain ⟨hlayout, hsteps⟩ := h rest hunder hstep
  refine ⟨?_, Nat.le_succ d, hsteps⟩
  rw [List.cons_append, layout, if_neg (Nat.lt_irrefl d), Nat.sub_self, hlayout, List.append_assoc]
  rfl

theorem single (d : Nat) (line : List Shape) : Lays d [(d, line)] (inLine line) := by
  simpa using (nil d).cons line

theorem append (h : Lays d ls shapes) (h' : Lays d ls' shapes') (hunder : Under d ls') :
    Lays d (ls ++ ls') (shapes ++ shapes') := by
  intro rest hrest hstep
  obtain ⟨hlayout', hsteps'⟩ := h' rest hrest hstep
  have hnext : Under d (ls' ++ rest) := by
    cases ls' with
    | nil => exact hrest
    | cons l ls' => exact hunder
  obtain ⟨hlayout, hsteps⟩ := h (ls' ++ rest) hnext hsteps'
  rw [List.append_assoc, List.append_assoc, hlayout, hlayout']
  exact ⟨rfl, hsteps⟩

/-- The lines of a block. -/
theorem suite (h : Lays (d + 1) ((d + 1, line) :: ls) shapes) :
    Lays d ((d + 1, line) :: ls) (.symbol .indent :: (shapes ++ [.symbol .dedent])) := by
  intro rest hunder hstep
  have hunder' : Under (d + 1) rest := fun l hl => (hunder l hl).trans (Nat.le_succ d)
  obtain ⟨hlayout, hsteps⟩ := h rest hunder' (hstep.deeper hunder (Nat.le_succ d))
  refine ⟨?_, Nat.le_refl _, hsteps.2⟩
  have hindent : layout d ((d + 1, line) :: ls ++ rest) =
      .symbol .indent :: layout (d + 1) ((d + 1, line) :: ls ++ rest) := by
    rw [List.cons_append, layout, layout, if_pos (Nat.lt_succ_self d), if_neg (Nat.lt_irrefl _), Nat.sub_self]
    rfl
  rw [hindent, hlayout, layout_dedent hunder]
  simp

end Lays

theorem linesAt_head {st : Stmt} (h : st.isBlock = false) (word : TokenType) (d : Nat) :
    ∃ line ls, st.linesAt word d = (d, line) :: ls := by
  cases st with
  | block => cases h
  | ret e => cases e <;> exact ⟨_, _, rfl⟩
  | _ => exact ⟨_, _, rfl⟩

theorem under_linesAt {st : Stmt} (h : st.isBlock = false) (word : TokenType) (d : Nat) :
    Under d (st.linesAt word d) := by
  obtain ⟨line, ls, hlines⟩ := linesAt_head h word d
  rw [hlines]
  rintro l ⟨⟩
  exact Nat.le_refl d

theorem under_allLines {sts : List Stmt} (hfit : allFit sts) (d : Nat) : Under d (allLines sts d) := by
  cases sts with
  | nil => simp [allLines, Under]
  | cons st sts =>
    obtain ⟨line, ls, hlines⟩ := linesAt_head hfit.1.1 .kwIf d
    rw [allLines, hlines]
    rintro l ⟨⟩
    exact Nat.le_refl d

/-- The tokens of a statement without the end of the header in front of a block. -/
def Stmt.inner : Stmt → TokenType → List Shape
  | .block sts, _ => .symbol .indent :: (printAll sts ++ [.symbol .dedent])
  | st, word => st.print word

theorem header_inner {body : Stmt} (h : body.isBlock) (word : TokenType) (header : List Shape) :
    inLine (header ++ [.symbol .colon]) ++ body.inner word = header ++ body.print word := by
  cases body with
  | block sts => simp [inLine, Stmt.inner, Stmt.print]
  | _ => cases h

theorem lays_header {body : Stmt} {word : TokenType} (hblock : body.isBlock)
    (h : Lays d (body.linesAt word d) (body.inner word)) (header : List Shape) :
    Lays d ((d, header ++ [.symbol .colon]) :: body.linesAt word d) (header ++ body.print word) := by
  rw [← header_inner hblock]
  exact h.cons _

theorem inner_stmt {st : Stmt} (h : st.isBlock = false) (word : TokenType) : st.inner word = st.print word := by
  cases st with
  | block => cases h
  | _ => rfl

mutual
theorem stmt_lays : (st : Stmt) → st.Fits → st.filled = true →
    ∀ word d, Lays d (st.linesAt word d) (st.inner word)
  | .expr e, _, _, _, d => .single d _
  | .assign name e, _, _, _, d => .single d _
  | .ret none, _, _, _, d => .single d _
  | .ret (some e), _, _, _, d => .single d _
  | .brk, _, _, _, d => .single d _
  | .cont, _, _, _, d => .single d _
  | .define name params body, h, hf, _, d => by
    have hbody := lays_header h.2.1 (stmt_lays body h.2.2 hf .kwIf d)
      (.symbol .kwDef :: .name name :: inParens (printParams params))
    simpa [Stmt.linesAt, Stmt.inner, Stmt.print] using hbody
  | .ite cond body, h, hf, word, d => by
    have hbody := lays_header h.2.1 (stmt_lays body h.2.2 hf .kwIf d) (.symbol word :: cond.print 5)
    simpa [Stmt.linesAt, Stmt.inner, Stmt.print] using hbody
  | .loop cond body, h, hf, _, d => by
    have hbody := lays_header h.2.1 (stmt_lays body h.2.2 hf .kwIf d) (.symbol .kwWhile :: cond.print 5)
    simpa [Stmt.linesAt, Stmt.inner, Stmt.print] using hbody
  | .forIn name iter body, h, hf, _, d => by
    have hbody := lays_header h.2.1 (stmt_lays body h.2.2 hf .kwIf d)
      (.symbol .kwFor :: .name name :: .symbol .kwIn :: iter.print 5)
    simpa [Stmt.linesAt, Stmt.inner, Stmt.print] using hbody
  | .iteElse cond body els, h, hf, word, d => by
    rw [Stmt.filled, Bool.and_eq_true] at hf
    have hbody := lays_header h.2.1.1 (stmt_lays body h.2.1.2 hf.1 .kwIf d) (.symbol word :: cond.print 5)
    have hels := stmt_lays els h.2.2.2 hf.2 .kwElif d
    have hbranch : Lays d (branchLine els d ++ els.linesAt .kwElif d) (branchWord els ++ els.print .kwElif) ∧
        Under d (branchLine els d ++ els.linesAt .kwElif d) := by
      rw [branchLine, branchWord]
      cases hb : els.isBlock with
      | true =>
        refine ⟨lays_header hb hels [.symbol .kwElse], ?_⟩
        rintro l ⟨⟩
        exact Nat.le_refl d
      | false =>
        rw [inner_stmt hb] at hels
        exact ⟨by simpa using hels, by simpa using under_linesAt hb .kwElif d⟩
    have hall := hbody.append hbranch.1 hbranch.2
    simpa [Stmt.linesAt, Stmt.inner, Stmt.print] using hall
  | .block sts, h, hf, _, d => by
    rw [Stmt.filled, Bool.and_eq_true] at hf
    obtain ⟨line, ls, hlines⟩ : ∃ line ls, allLines sts (d + 1) = (d + 1, line) :: ls := by
      cases sts with
      | nil => cases hf.1
      | cons st sts =>
        obtain ⟨line, ls, hlines⟩ := linesAt_head h.2.1.1 .kwIf (d + 1)
        exact ⟨line, _, by rw [allLines, hlines]; rfl⟩
    have hall := stmts_lay sts h.2 hf.2 (d + 1)
    rw [hlines] at hall
    rw [Stmt.linesAt, hlines]
    exact hall.suite

theorem stmts_lay : (sts : List Stmt) → allFit sts → allFilled sts = true →
    ∀ d, Lays d (allLines sts d) (printAll sts)
  | [], _, _, d => .nil d
  | st :: sts, h, hf, d => by
    rw [allFilled, Bool.and_eq_true] at hf
    have hst := stmt_lays st h.1.2 hf.1 .kwIf d
    rw [inner_stmt h.1.1] at hst
    rw [allLines, printAll]
    exact hst.append (stmts_lay sts h.2 hf.2 d) (under_allLines h.2 d)
end

mutual
theorem line_ne_nil : (st : Stmt) → ∀ word d, ∀ l ∈ st.linesAt word d, l.2 ≠ []
  | .expr e, _, _ => by
    obtain ⟨sh, shs, he, -⟩ := e.print_starts 5
    simp [Stmt.linesAt, he]
  | .assign _ _, _, _ => by simp [Stmt.linesAt]
  | .ret none, _, _ => by simp [Stmt.linesAt]
  | .ret (some _), _, _ => by simp [Stmt.linesAt]
  | .brk, _, _ => by simp [Stmt.linesAt]
  | .cont, _, _ => by simp [Stmt.linesAt]
  | .define _ _ body, _, d => List.forall_mem_cons.mpr ⟨List.cons_ne_nil _ _, line_ne_nil body .kwIf d⟩
  | .ite _ body, _, d => List.forall_mem_cons.mpr ⟨List.cons_ne_nil _ _, line_ne_nil body .kwIf d⟩
  | .loop _ body, _, d => List.forall_mem_cons.mpr ⟨List.cons_ne_nil _ _, line_ne_nil body .kwIf d⟩
  | .forIn _ _ body, _, d => List.forall_mem_cons.mpr ⟨List.cons_ne_nil _ _, line_ne_nil body .kwIf d⟩
  | .iteElse _ body els, _, d => by
    have hbranch : ∀ l ∈ branchLine els d, l.2 ≠ [] := by
      unfold branchLine
      split <;> simp
    refine List.forall_mem_cons.mpr ⟨List.cons_ne_nil _ _,
      List.forall_mem_append.mpr ⟨line_ne_nil body .kwIf d, ?_⟩⟩
    exact List.forall_mem_append.mpr ⟨hbranch, line_ne_nil els .kwElif d⟩
  | .block sts, _, d => lines_ne_nil sts (d + 1)

theorem lines_ne_nil : (sts : List Stmt) → ∀ d, ∀ l ∈ allLines sts d, l.2 ≠ []
  | [], _ => by simp [allLines]
  | st :: sts, d => List.forall_mem_append.mpr ⟨line_ne_nil st .kwIf d, lines_ne_nil sts d⟩
end

/-- A program that has a text, with room for its tokens and for its nodes. -/
structure Writable (sts : List Stmt) : Prop where
  fits : allFit sts
  filled : allFilled sts = true
  spelt : ∀ l ∈ allLines sts 0, ∀ sh ∈ l.2, sh.Spelt
  shallow : ∀ l ∈ allLines sts 0, l.1 < maxIndent
  count : sts.length ≤ maxChildren
  tokens : (printAll sts).length < maxTokens
  nodes : sizeAll sts < maxNodes

theorem Writable.lex {sts : List Stmt} (h : Writable sts) (s : Run) :
    ∃ s', gkLex (programText sts) s = .ok () s' ∧ s'.tokens.map Token.shape = printAll sts ++ [.symbol .eof] ∧
      { s' with tokens := s.tokens, tokPos := s.tokPos } = s := by
  obtain ⟨hlayout, hsteps⟩ := stmts_lay sts h.fits h.filled 0 [] (by simp [Under]) trivial
  rw [List.append_nil] at hlayout hsteps
  have hok : ∀ l ∈ allLines sts 0, SourceLine.Ok l := fun l hl =>
    ⟨h.shallow l hl, lines_ne_nil sts 0 l hl, h.spelt l hl⟩
  have hend : layout 0 [] = [Shape.symbol .eof] := rfl
  rw [hend] at hlayout
  have hroom : (layout 0 (allLines sts 0)).length ≤ maxTokens := by
    rw [hlayout, List.length_append, List.length_singleton]
    exact h.tokens
  obtain ⟨s', hlex, htokens, hframe⟩ := gkLex_sourceText hok hsteps hroom s
  exact ⟨s', hlex, htokens.trans hlayout, hframe⟩

theorem Writable.reads {sts : List Stmt} (h : Writable sts) (s : Run) :
    ∃ s₁ s₂, gkLex (programText sts) s = .ok () s₁ ∧ gkParse s₁ = .ok 0 s₂ ∧
      Open s₁.cleared (printAll sts).length (.plain .block) (stmtTrees sts) s₂ ∧
      { s₁ with tokens := s.tokens, tokPos := s.tokPos } = s := by
  obtain ⟨s₁, hlex, htokens, hframe⟩ := h.lex s
  obtain ⟨s₂, hparse, hopen, -⟩ := gkParse_reads sts h.count h.fits h.nodes s₁ htokens
  exact ⟨s₁, s₂, hlex, hparse, hopen, hframe⟩

/-- The lexer and the parser together invert the writing of programs: from the text of
a program they leave its syntax tree, and nothing else changes. -/
theorem source_round_trip {sts : List Stmt} (h : Writable sts) (s : Run) :
    ∃ s₁ s₂, gkLex (programText sts) s = .ok () s₁ ∧ gkParse s₁ = .ok 0 s₂ ∧
      Laid (cell s₂.nodes) 0 [(Stmt.block sts).toTree] [0] s₂.nodes.length ∧
      { s₂ with nodes := s.nodes, tokens := s.tokens, tokPos := s.tokPos, past := s.past } = s := by
  obtain ⟨s₁, s₂, hlex, hparse, hopen, hframe₁⟩ := h.reads s
  obtain ⟨new, hgrows⟩ := hopen.grows
  refine ⟨s₁, s₂, hlex, hparse, hopen.close, ?_⟩
  have hback := congrArg
    (fun r : Run => { r with nodes := s.nodes, tokens := s.tokens, tokPos := s.tokPos, past := s.past })
      hgrows.frame
  have hback₁ := congrArg (fun r : Run => { r with nodes := s.nodes, past := s.past }) hframe₁
  exact hback.trans hback₁

theorem sampleProgram_writable : Writable sampleProgram where
  fits := sampleProgram_fits.2.1
  filled := by decide
  spelt := by decide +kernel
  shallow := by decide +kernel
  count := sampleProgram_fits.1
  tokens := by decide +kernel
  nodes := sampleProgram_fits.2.2

theorem source_round_trip_sample : ∃ s₁ s₂,
    gkLex (programText sampleProgram) (freshState []).start = .ok () s₁ ∧
    gkParse s₁ = .ok 0 s₂ ∧ Laid (cell s₂.nodes) 0 [(Stmt.block sampleProgram).toTree] [0] s₂.nodes.length ∧
    { s₂ with nodes := [], tokens := [], tokPos := 0, past := [] } = (freshState []).start :=
  source_round_trip sampleProgram_writable (freshState []).start

end GeckoOS.Gk
