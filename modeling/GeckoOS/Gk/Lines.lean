import GeckoOS.Gk.Lexer

/-! The lexer line by line. Apart from the line numbers, what it does depends on the
indentation and the lexemes of the lines that are not blank. -/
namespace GeckoOS.Gk
open Lib

/-! The parts of a line, as the loop over the lines measures them. -/

def afterSpaces (src : List UInt8) : List UInt8 := src.drop (src.takeWhile (· == ' '.toUInt8)).length

def body (src : List UInt8) : List UInt8 :=
  (afterSpaces src).drop ((afterSpaces src).takeWhile (· == '\t'.toUInt8)).length

def width (src : List UInt8) : Nat :=
  (src.takeWhile (· == ' '.toUInt8)).length + 4 * ((afterSpaces src).takeWhile (· == '\t'.toUInt8)).length

def Blank (src : List UInt8) : Prop :=
  body src = [] ∨ (body src).headD 0 = '\n'.toUInt8 ∨ (body src).headD 0 = '#'.toUInt8

instance (src : List UInt8) : Decidable (Blank src) := inferInstanceAs (Decidable (_ ∨ _))

/-- The lexemes up to the end of the line, and the source from there on. -/
def lexemes : Nat → List UInt8 → List Lexeme × List UInt8
  | _, [] => ([], [])
  | 0, c :: src => ([], c :: src)
  | n + 1, c :: src =>
    if c = '\n'.toUInt8 then ([], c :: src)
    else ((lexeme c src).1 :: (lexemes n (lexeme c src).2).1, (lexemes n (lexeme c src).2).2)

/-- The source from the end of its first line on; a string may go on over line ends. -/
def lineEnd (src : List UInt8) : List UInt8 := (lexemes src.length src).2

structure Line where
  width : Nat
  lexemes : List Lexeme

def firstLine (src : List UInt8) : List Line :=
  if Blank src then [] else [⟨width src, (lexemes (body src).length (body src)).1⟩]

/-- The lines that are not blank. -/
def linesUpTo : Nat → List UInt8 → List Line
  | _, [] => []
  | 0, _ :: _ => []
  | n + 1, c :: src => firstLine (c :: src) ++ linesUpTo n (lineEnd (c :: src)).tail

def lines (src : List UInt8) : List Line := linesUpTo src.length src

/-! The lexer on such lines, with 0 for the number of every line. -/

def emitAll : List Lexeme → GkM Unit
  | [] => return ()
  | l :: ls => do
    emitLexeme 0 l
    emitAll ls

def lexLines : List Nat → List Line → GkM Unit
  | stack, [] => do
    closeIndents 0 stack
    orFail (emit .eof 0)
  | stack, line :: lines => do
    let stack ← setIndent line.width 0 stack
    emitAll line.lexemes
    orFail (emit .newline 0)
    lexLines stack lines

def Token.unlined (t : Token) : Token := { t with line := 0 }

def Run.unlined (s : Run) : Run := { s with tokens := s.tokens.map Token.unlined }

/-- `gk_lex`, apart from the line numbers: how it ends, and the state that it leaves. -/
def lexOutcome (src : List UInt8) (s : Run) : EStateM.Result Stop Run Unit := through Run.unlined (gkLex src s)

variable {c : UInt8} {a b src src' x : List UInt8} {n m line indent : Nat} {stack : List Nat}

/-! ### Where lines end -/

theorem lexemes_eq (hn : src.length ≤ n) (hm : src.length ≤ m) : lexemes n src = lexemes m src := by
  induction n generalizing m src with
  | zero =>
    obtain rfl := List.length_eq_zero_iff.mp (Nat.le_zero.mp hn)
    cases m <;> rfl
  | succ n ih =>
    cases src with
    | nil => cases m <;> rfl
    | cons c src =>
      cases m with
      | zero => exact absurd hm (Nat.not_succ_le_zero _)
      | succ m =>
        have hlen := (lexeme_suffix c src).length_le
        rw [lexemes, lexemes, ih (hlen.trans (Nat.le_of_succ_le_succ hn))
          (hlen.trans (Nat.le_of_succ_le_succ hm))]

theorem lexemes_newline (n : Nat) (src : List UInt8) :
    lexemes n ('\n'.toUInt8 :: src) = ([], '\n'.toUInt8 :: src) := by
  cases n with
  | zero => rfl
  | succ n => exact if_pos rfl

theorem lexemes_cons (hc : c ≠ '\n'.toUInt8) : lexemes (c :: src).length (c :: src) =
    ((lexeme c src).1 :: (lexemes (lexeme c src).2.length (lexeme c src).2).1, lineEnd (lexeme c src).2) := by
  have hlen := (lexeme_suffix c src).length_le
  rw [List.length_cons, lexemes, if_neg hc, lexemes_eq hlen (Nat.le_refl _)]
  rfl

theorem lineEnd_newline (src : List UInt8) : lineEnd ('\n'.toUInt8 :: src) = '\n'.toUInt8 :: src :=
  congrArg Prod.snd (lexemes_newline _ src)

theorem lineEnd_cons (hc : c ≠ '\n'.toUInt8) : lineEnd (c :: src) = lineEnd (lexeme c src).2 := by
  rw [lineEnd, lexemes_cons hc]

theorem lexemes_suffix (n : Nat) (src : List UInt8) : (lexemes n src).2 <:+ src := by
  induction n generalizing src with
  | zero => cases src <;> exact List.suffix_refl _
  | succ n ih =>
    cases src with
    | nil => exact List.suffix_refl _
    | cons c src =>
      rw [lexemes]
      split
      · exact List.suffix_refl _
      · exact ((ih _).trans (lexeme_suffix c src)).trans (List.suffix_cons c src)

theorem lineEnd_suffix (src : List UInt8) : lineEnd src <:+ src := lexemes_suffix _ src

theorem lineEnd_space (hc : isSpace c = true) : lineEnd (c :: src) = lineEnd src := by
  have hne : c ≠ '\n'.toUInt8 := by
    rintro rfl
    exact absurd hc (by decide)
  rw [lineEnd_cons hne, lexeme, if_pos hc]

theorem lineEnd_comment (src : List UInt8) :
    lineEnd ('#'.toUInt8 :: src) = src.dropWhile (· != '\n'.toUInt8) := by
  have hlexeme : (lexeme '#'.toUInt8 src).2 = src.dropWhile (· != '\n'.toUInt8) := by
    rw [lexeme, if_neg (by decide), if_pos rfl]
  rw [lineEnd_cons (by decide), hlexeme]
  cases h : src.dropWhile (· != '\n'.toUInt8) with
  | nil => rfl
  | cons c rest =>
    have hc := List.head_dropWhile_not (· != '\n'.toUInt8) (l := src) (by simp [h])
    simp only [h, List.head_cons, bne_eq_false_iff_eq] at hc
    rw [hc, lineEnd_newline]

theorem lineEnd_drop_takeWhile {p : UInt8 → Bool} (hp : ∀ c, p c = true → isSpace c = true) (src : List UInt8) :
    lineEnd (src.drop (src.takeWhile p).length) = lineEnd src := by
  induction src with
  | nil => rfl
  | cons c src ih =>
    by_cases hc : p c = true
    · rw [List.takeWhile_cons_of_pos hc, List.length_cons, List.drop_succ_cons, ih, lineEnd_space (hp c hc)]
    · rw [List.takeWhile_cons_of_neg hc]
      rfl

theorem lineEnd_body (src : List UInt8) : lineEnd (body src) = lineEnd src := by
  have hspace : ∀ c : UInt8, (c == ' '.toUInt8) = true → isSpace c = true := fun c hc => by simp [isSpace, hc]
  have htab : ∀ c : UInt8, (c == '\t'.toUInt8) = true → isSpace c = true := fun c hc => by simp [isSpace, hc]
  rw [body, lineEnd_drop_takeWhile htab, afterSpaces, lineEnd_drop_takeWhile hspace]

/-- A blank line is dropped to its end. -/
theorem lineEnd_of_blank (h : Blank src) : lineEnd src = (body src).dropWhile (· != '\n'.toUInt8) := by
  rw [← lineEnd_body]
  unfold Blank at h
  cases hbody : body src with
  | nil => rfl
  | cons c rest =>
    rw [hbody] at h
    obtain h | rfl | rfl := h
    · cases h
    · rw [lineEnd_newline, List.dropWhile_cons_of_neg (by simp)]
    · rw [lineEnd_comment, List.dropWhile_cons_of_pos (by decide)]

/-! ### The loops -/

theorem mirrors_orFail (t : Token) :
    Mirrors Run.unlined (orFail (emitToken t)) (orFail (emitToken t.unlined)) := by
  intro s
  have hlen : s.unlined.tokens.length = s.tokens.length := List.length_map _
  rw [orFail_emit, orFail_emit, hlen]
  split
  · rfl
  · simp [through, Run.unlined]

theorem mirrors_emit (t : TokenType) (line : Nat) : Mirrors Run.unlined (emit t line) (emit t 0) := by
  intro s
  have hlen : s.unlined.tokens.length = s.tokens.length := List.length_map _
  unfold emit emitToken
  rw [hlen]
  split
  · rfl
  · simp [through, Run.unlined, Token.unlined]

theorem mirrors_emitLexeme (line : Nat) (l : Lexeme) :
    Mirrors Run.unlined (emitLexeme line l) (emitLexeme 0 l) := by
  cases l with
  | nothing => exact .pure _
  | int v => exact mirrors_orFail _
  | text t str => exact mirrors_orFail _
  | operator t => exact .bind (mirrors_emit t line) fun _ => .pure _
  | unknown => exact fun s => rfl

/-- The token loop in front of what comes behind it. -/
theorem mirrors_tokenLoop {k : List UInt8 → GkM Unit} {k' : GkM Unit} (line : Nat) (hn : src.length ≤ n)
    (hk : Mirrors Run.unlined (k (lexemes n src).2) k') :
    Mirrors Run.unlined (tokenLoop line n src >>= k) (emitAll (lexemes n src).1 >>= fun _ => k') := by
  induction n generalizing src with
  | zero =>
    obtain rfl := List.length_eq_zero_iff.mp (Nat.le_zero.mp hn)
    exact .bind (.pure _) fun _ => hk
  | succ n ih =>
    cases src with
    | nil => exact hk
    | cons c src =>
      rw [lexemes] at hk ⊢
      rw [tokenLoop]
      split
      · next hc =>
        rw [if_pos hc] at hk
        exact hk
      · next hc =>
        rw [if_neg hc] at hk
        have hlen := (lexeme_suffix c src).length_le.trans (Nat.le_of_succ_le_succ hn)
        simp only [emitAll, bind_assoc]
        exact .bind (mirrors_emitLexeme line _) fun _ => ih hlen hk

theorem mirrors_popIndents (indent line : Nat) (stack : List Nat) :
    Mirrors Run.unlined (popIndents indent line stack) (popIndents indent 0 stack) := by
  induction stack with
  | nil => exact .pure _
  | cons top stack ih => exact .ite (.bind (mirrors_orFail _) fun _ => ih) (.pure _)

theorem mirrors_setIndent (indent line : Nat) (stack : List Nat) :
    Mirrors Run.unlined (setIndent indent line stack) (setIndent indent 0 stack) := by
  unfold setIndent
  have hpush : Mirrors Run.unlined (do orFail (emit .indent line); return indent :: stack)
      (do orFail (emit .indent 0); return indent :: stack) := .bind (mirrors_orFail _) fun _ => .pure _
  exact .ite (.ite (.bind (.throw _) fun _ => hpush) hpush) (mirrors_popIndents indent line stack)

theorem mirrors_closeIndents (line : Nat) (stack : List Nat) :
    Mirrors Run.unlined (closeIndents line stack) (closeIndents 0 stack) := by
  induction stack with
  | nil => exact .pure _
  | cons top stack ih =>
    cases stack with
    | nil => exact .pure _
    | cons next stack => exact .bind (mirrors_orFail _) fun _ => ih

theorem lineLoop_blank (h : Blank (c :: src)) : lineLoop (n + 1) line stack (c :: src) =
    lineLoop n (if lineEnd (c :: src) = [] then line else line + 1) stack (lineEnd (c :: src)).tail := by
  rw [lineEnd_of_blank h, lineLoop]
  exact if_pos h

theorem lineLoop_line (h : ¬ Blank (c :: src)) : lineLoop (n + 1) line stack (c :: src) = (do
    let stack ← setIndent (width (c :: src)) line stack
    let src ← tokenLoop line ((body (c :: src)).length + 1) (body (c :: src))
    orFail (emit .newline line)
    lineLoop n (if src = [] then line else line + 1) stack src.tail) := by
  rw [lineLoop]
  exact if_neg h

theorem length_lineEnd_tail (hn : (c :: src).length ≤ n + 1) : (lineEnd (c :: src)).tail.length ≤ n := by
  have hlen := (lexemes_suffix (c :: src).length (c :: src)).length_le
  rw [List.length_tail]
  exact Nat.sub_le_of_le_add (hlen.trans hn)

theorem setIndent_push (h : stack.headD 0 < indent) (hroom : stack.length < maxIndent) :
    setIndent indent line stack = (do orFail (emit .indent line); return indent :: stack) := by
  unfold setIndent
  exact (if_pos h).trans (if_neg (Nat.not_le.mpr hroom))

/-- The loop over the lines is `lexLines` on the lines that are not blank. -/
theorem mirrors_lineLoop (hn : src.length ≤ n) :
    Mirrors Run.unlined (lineLoop n line stack src) (lexLines stack (linesUpTo n src)) := by
  have hend (line : Nat) (stack : List Nat) : Mirrors Run.unlined
    (do closeIndents line stack; orFail (emit .eof line))
      (lexLines stack []) := .bind (mirrors_closeIndents line stack) fun _ => mirrors_orFail _
  induction n generalizing src line stack with
  | zero =>
    obtain rfl := List.length_eq_zero_iff.mp (Nat.le_zero.mp hn)
    exact hend line stack
  | succ n ih =>
    cases src with
    | nil => exact hend line stack
    | cons c src =>
      have hrest := length_lineEnd_tail hn
      rw [linesUpTo, firstLine]
      by_cases hblank : Blank (c :: src)
      · rw [lineLoop_blank hblank, if_pos hblank]
        exact ih hrest
      · rw [lineLoop_line hblank, if_neg hblank]
        refine .bind (mirrors_setIndent _ line stack) fun stack' => ?_
        have hfuel : lexemes ((body (c :: src)).length + 1) (body (c :: src)) =
            lexemes (body (c :: src)).length (body (c :: src)) := lexemes_eq (Nat.le_succ _) (Nat.le_refl _)
        have hnext : ∀ line, Mirrors Run.unlined
            (lineLoop n line stack' (lexemes ((body (c :: src)).length + 1) (body (c :: src))).2.tail)
            (lexLines stack' (linesUpTo n (lineEnd (c :: src)).tail)) := by
          intro line
          rw [hfuel]
          show Mirrors Run.unlined (lineLoop n line stack' (lineEnd (body (c :: src))).tail) _
          rw [lineEnd_body]
          exact ih hrest
        have hloop := mirrors_tokenLoop (k := fun src => do
          orFail (emit .newline line)
          lineLoop n (if src = [] then line else line + 1) stack' src.tail) line
          (Nat.le_succ (body (c :: src)).length) (.bind (mirrors_orFail _) fun _ => hnext _)
        rw [hfuel] at hloop
        exact hloop

theorem linesUpTo_eq (hn : src.length ≤ n) : linesUpTo n src = lines src := by
  have hfuel : ∀ {n m : Nat} {src : List UInt8}, src.length ≤ n → src.length ≤ m →
    linesUpTo n src = linesUpTo m src := by
    intro n
    induction n with
    | zero =>
      intro m src hn _
      obtain rfl := List.length_eq_zero_iff.mp (Nat.le_zero.mp hn)
      cases m <;> rfl
    | succ n ih =>
      intro m src hn hm
      cases src with
      | nil => cases m <;> rfl
      | cons c src =>
        cases m with
        | zero => exact absurd hm (Nat.not_succ_le_zero _)
        | succ m => rw [linesUpTo, linesUpTo, ih (length_lineEnd_tail hn) (length_lineEnd_tail hm)]
  exact hfuel hn (Nat.le_refl _)

/-- The lines behind the first one. -/
theorem lines_eq (src : List UInt8) : lines src = firstLine src ++ lines (lineEnd src).tail := by
  cases src with
  | nil => rfl
  | cons c src => rw [lines, List.length_cons, linesUpTo, linesUpTo_eq (length_lineEnd_tail (Nat.le_refl _))]

/-- The lexer on a source is `lexLines` on its lines. -/
theorem lexOutcome_eq (src : List UInt8) (s : Run) :
    lexOutcome src s = lexLines [0] (lines src) { s.unlined with tokens := [], tokPos := 0 } := by
  have hloop : Mirrors Run.unlined (lineLoop (src.length + 1) 1 [0] src)
    (lexLines [0] (linesUpTo (src.length + 1) src)) :=
    mirrors_lineLoop (Nat.le_succ src.length)
  rw [linesUpTo_eq (Nat.le_succ src.length)] at hloop
  exact hloop { s with tokens := [], tokPos := 0 }

/-! ### Sources in pieces -/

private theorem dropWhile_local {p : UInt8 → Bool} (hp : p '\n'.toUInt8 = false) (a x : List UInt8) :
    (a ++ '\n'.toUInt8 :: x).dropWhile p = a.dropWhile p ++ '\n'.toUInt8 :: x := by
  induction a with
  | nil => exact List.dropWhile_cons_of_neg (by simp [hp])
  | cons c a ih =>
    by_cases hc : p c = true
    · rw [List.cons_append, List.dropWhile_cons_of_pos hc, List.dropWhile_cons_of_pos hc, ih]
    · rw [List.cons_append, List.dropWhile_cons_of_neg hc, List.dropWhile_cons_of_neg hc, List.cons_append]

private theorem takeWhile_local {p : UInt8 → Bool} (hp : p '\n'.toUInt8 = false) (a x : List UInt8) :
    (a ++ '\n'.toUInt8 :: x).takeWhile p = a.takeWhile p := by
  induction a with
  | nil => exact List.takeWhile_cons_of_neg (by simp [hp])
  | cons c a ih =>
    by_cases hc : p c = true
    · rw [List.cons_append, List.takeWhile_cons_of_pos hc, List.takeWhile_cons_of_pos hc, ih]
    · rw [List.cons_append, List.takeWhile_cons_of_neg hc, List.takeWhile_cons_of_neg hc]

/-- What a string reads in front of a line end behind it does not depend on what comes after that. -/
private theorem strLoop_local {quote : UInt8} {buf : List UInt8}
    (hlen : x.length + 1 < (strLoop quote (a ++ '\n'.toUInt8 :: x) buf).2.length) :
    ∃ d b, b.length < a.length ∧ ∀ y, strLoop quote (a ++ '\n'.toUInt8 :: y) buf =
      ((strLoop quote (a ++ '\n'.toUInt8 :: x) buf).1, d :: b ++ '\n'.toUInt8 :: y) := by
  induction hk : a.length using Nat.strongRecOn generalizing a buf with
  | ind k ih =>
    subst hk
    have hshort {src buf : List UInt8} (hsrc : src <:+ '\n'.toUInt8 :: x) :
        ¬ x.length + 1 < (strLoop quote src buf).2.length :=
      Nat.not_lt.mpr (((strLoop_suffix quote src buf).trans hsrc).length_le)
    match a with
    | [] => exact absurd hlen (hshort (List.suffix_refl _))
    | [c] =>
      simp only [List.cons_append, List.nil_append, strLoop] at hlen ⊢
      by_cases hq : c = quote
      · simp only [if_pos hq]
        exact ⟨c, [], Nat.one_pos, fun y => rfl⟩
      · simp only [if_neg hq] at hlen
        split at hlen
        · split at hlen
          · exact absurd hlen (by simp)
          · exact absurd hlen (hshort (List.suffix_cons _ _))
        · split at hlen
          · exact absurd hlen (by simp)
          · exact absurd hlen (hshort (List.suffix_refl _))
    | c :: d :: a =>
      simp only [List.cons_append, strLoop] at hlen ⊢
      by_cases hq : c = quote
      · simp only [if_pos hq]
        exact ⟨c, d :: a, Nat.lt_succ_self _, fun y => rfl⟩
      · simp only [if_neg hq] at hlen ⊢
        split
        · next hescape =>
          simp only [if_pos hescape] at hlen
          split
          · next hfull =>
            simp only [if_pos hfull] at hlen
            cases a with
            | nil => exact absurd hlen (by simp)
            | cons e a => exact ⟨e, a, by simp only [List.length_cons]; omega, fun y => rfl⟩
          · next hfull =>
            simp only [if_neg hfull] at hlen
            obtain ⟨e, b, hb, hlocal⟩ := ih a.length (by simp only [List.length_cons]; omega) hlen rfl
            exact ⟨e, b, by simp only [List.length_cons]; omega, hlocal⟩
        · next hescape =>
          simp only [if_neg hescape] at hlen
          split
          · exact ⟨d, a, by simp only [List.length_cons]; omega, fun y => rfl⟩
          · next hfull =>
            simp only [if_neg hfull] at hlen
            have hlen' : x.length + 1 <
              (strLoop quote (d :: a ++ '\n'.toUInt8 :: x) (buf ++ [c])).2.length := hlen
            obtain ⟨e, b, hb, hlocal⟩ := ih (d :: a).length (Nat.lt_succ_self _) hlen' rfl
            exact ⟨e, b, Nat.lt_succ_of_lt hb, hlocal⟩

private theorem takeWhile_take_local {p : UInt8 → Bool} (hp : p '\n'.toUInt8 = false) (k : Nat)
    (a x : List UInt8) :
    ((a ++ '\n'.toUInt8 :: x).take k).takeWhile p = (a.take k).takeWhile p := by
  induction a generalizing k with
  | nil =>
    cases k with
    | zero => rfl
    | succ k => exact List.takeWhile_cons_of_neg (by simp [hp])
  | cons c a ih =>
    cases k with
    | zero => rfl
    | succ k =>
      rw [List.cons_append, List.take_succ_cons, List.take_succ_cons, List.takeWhile_cons,
        List.takeWhile_cons, ih]

private theorem operatorLexeme_of_some {src : List UInt8} {t : TokenType}
    (h : (if src.headD 0 = '='.toUInt8 then doubles.lookup c else none) = some t) :
    operatorLexeme c src = (.operator t, src.tail) := by
  rw [operatorLexeme, h]

private theorem operatorLexeme_of_none {src : List UInt8}
    (h : (if src.headD 0 = '='.toUInt8 then doubles.lookup c else none) = none) :
    operatorLexeme c src = ((singles.lookup c).elim .unknown .operator, src) := by
  rw [operatorLexeme, h]
  cases singles.lookup c <;> rfl

private theorem operatorLexeme_local (c : UInt8) (a x : List UInt8) : ∃ b, b.length ≤ a.length ∧
    ∀ y, operatorLexeme c (a ++ '\n'.toUInt8 :: y) =
      ((operatorLexeme c (a ++ '\n'.toUInt8 :: x)).1, b ++ '\n'.toUInt8 :: y) := by
  cases a with
  | nil =>
    have hsingle (y : List UInt8) : operatorLexeme c ('\n'.toUInt8 :: y) = _ :=
      operatorLexeme_of_none (if_neg (show ¬ '\n'.toUInt8 = '='.toUInt8 by decide))
    refine ⟨[], Nat.le_refl _, fun y => ?_⟩
    rw [List.nil_append, List.nil_append, hsingle, hsingle]
  | cons d a =>
    cases hdouble : if d = '='.toUInt8 then doubles.lookup c else none with
    | some t =>
      have hsome (y : List UInt8) : operatorLexeme c (d :: (a ++ '\n'.toUInt8 :: y)) = _ :=
        operatorLexeme_of_some hdouble
      refine ⟨a, Nat.le_succ _, fun y => ?_⟩
      rw [List.cons_append, List.cons_append, hsome, hsome, List.tail_cons]
    | none =>
      have hnone (y : List UInt8) : operatorLexeme c (d :: (a ++ '\n'.toUInt8 :: y)) = _ :=
        operatorLexeme_of_none hdouble
      refine ⟨d :: a, Nat.le_refl _, fun y => ?_⟩
      rw [List.cons_append, List.cons_append, hnone, hnone]

/-- The same of a lexeme. -/
private theorem lexeme_local (hlen : x.length < (lexeme c (a ++ '\n'.toUInt8 :: x)).2.length) :
    ∃ b, b.length ≤ a.length ∧ ∀ y, lexeme c (a ++ '\n'.toUInt8 :: y) =
      ((lexeme c (a ++ '\n'.toUInt8 :: x)).1, b ++ '\n'.toUInt8 :: y) := by
  unfold lexeme at hlen ⊢
  by_cases hspace : isSpace c = true
  · simp only [if_pos hspace]
    exact ⟨a, Nat.le_refl _, fun y => rfl⟩
  simp only [if_neg hspace] at hlen ⊢
  by_cases hcomment : c = '#'.toUInt8
  · simp only [if_pos hcomment]
    exact ⟨_, List.length_dropWhile_le .., fun y => congrArg _ (dropWhile_local (by decide) a y)⟩
  simp only [if_neg hcomment] at hlen ⊢
  by_cases hdigit : isDigit c = true
  · simp only [if_pos hdigit, List.takeWhile_cons_of_pos hdigit, List.dropWhile_cons_of_pos hdigit,
      takeWhile_local (show isDigit '\n'.toUInt8 = false by decide),
      dropWhile_local (show isDigit '\n'.toUInt8 = false by decide)]
    exact ⟨_, List.length_dropWhile_le .., fun y => rfl⟩
  simp only [if_neg hdigit] at hlen ⊢
  by_cases hquote : isQuote c = true
  · simp only [if_pos hquote] at hlen ⊢
    rw [List.length_tail] at hlen
    obtain ⟨d, b, hb, hlocal⟩ := strLoop_local (Nat.add_lt_of_lt_sub hlen)
    refine ⟨b, Nat.le_of_lt hb, fun y => ?_⟩
    rw [hlocal y]
    rfl
  simp only [if_neg hquote] at hlen ⊢
  by_cases halpha : isAlpha c = true
  · have halnum : isAlnum c = true := by simp [isAlnum, halpha]
    have hword : ∀ y, ((c :: (a ++ '\n'.toUInt8 :: y)).take 63).takeWhile isAlnum =
      c :: (a.take 62).takeWhile isAlnum := by
      intro y
      rw [List.take_succ_cons, List.takeWhile_cons_of_pos halnum, takeWhile_take_local (by decide)]
    have hle : ((a.take 62).takeWhile isAlnum).length ≤ a.length :=
      (List.takeWhile_prefix _).length_le.trans (List.take_prefix 62 a).length_le
    simp only [if_pos halpha, hword, List.length_cons, List.drop_succ_cons, List.drop_append_of_le_length hle]
    exact ⟨_, (List.drop_suffix _ _).length_le, fun y => rfl⟩
  simp only [if_neg halpha]
  exact operatorLexeme_local c a x

private theorem lexemes_local (h : lineEnd (a ++ '\n'.toUInt8 :: x) = '\n'.toUInt8 :: x) (y : List UInt8) :
    lexemes (a ++ '\n'.toUInt8 :: y).length (a ++ '\n'.toUInt8 :: y) =
      ((lexemes (a ++ '\n'.toUInt8 :: x).length (a ++ '\n'.toUInt8 :: x)).1, '\n'.toUInt8 :: y) := by
  induction hk : a.length using Nat.strongRecOn generalizing a with
  | ind k ih =>
    subst hk
    cases a with
    | nil => rw [List.nil_append, List.nil_append, lexemes_newline, lexemes_newline]
    | cons c a =>
      by_cases hc : c = '\n'.toUInt8
      · rw [List.cons_append, hc, lineEnd_newline] at h
        have hlen := congrArg List.length h
        simp only [List.length_cons, List.length_append] at hlen
        omega
      · have h' : lineEnd (lexeme c (a ++ '\n'.toUInt8 :: x)).2 = '\n'.toUInt8 :: x := by
          rw [← lineEnd_cons hc]
          exact h
        have hlen := (lineEnd_suffix (lexeme c (a ++ '\n'.toUInt8 :: x)).2).length_le
        rw [h', List.length_cons] at hlen
        obtain ⟨b, hb, hlocal⟩ := lexeme_local hlen
        rw [hlocal x] at h'
        rw [List.cons_append, List.cons_append, lexemes_cons hc, lexemes_cons hc, hlocal y, hlocal x]
        have hrest := ih b.length (Nat.lt_succ_of_le hb) h' rfl
        rw [lineEnd, hrest]

private theorem drop_takeWhile_local {p : UInt8 → Bool} (hp : p '\n'.toUInt8 = false) (a x : List UInt8) :
    (a ++ '\n'.toUInt8 :: x).drop ((a ++ '\n'.toUInt8 :: x).takeWhile p).length =
      a.drop (a.takeWhile p).length ++ '\n'.toUInt8 :: x := by
  rw [takeWhile_local hp, List.drop_append_of_le_length (List.takeWhile_prefix p).length_le]

private theorem afterSpaces_local (a x : List UInt8) :
    afterSpaces (a ++ '\n'.toUInt8 :: x) = afterSpaces a ++ '\n'.toUInt8 :: x :=
      drop_takeWhile_local (by decide) a x

private theorem body_local (a x : List UInt8) :
    body (a ++ '\n'.toUInt8 :: x) = body a ++ '\n'.toUInt8 :: x := by
  rw [body, afterSpaces_local]
  exact drop_takeWhile_local (by decide) (afterSpaces a) x

private theorem width_local (a x : List UInt8) : width (a ++ '\n'.toUInt8 :: x) = width a := by
  rw [width, afterSpaces_local, takeWhile_local (by decide), takeWhile_local (by decide), width]

private theorem blank_local (a x : List UInt8) : Blank (a ++ '\n'.toUInt8 :: x) ↔ Blank a := by
  rw [Blank, Blank, body_local]
  cases body a with
  | nil => simp
  | cons c rest => simp

/-- A line that ends in front of a line end does not depend on what comes after that. -/
theorem line_local (h : lineEnd (a ++ ['\n'.toUInt8]) = ['\n'.toUInt8]) (x : List UInt8) :
    lineEnd (a ++ '\n'.toUInt8 :: x) = '\n'.toUInt8 :: x ∧
      firstLine (a ++ '\n'.toUInt8 :: x) = firstLine (a ++ ['\n'.toUInt8]) := by
  refine ⟨congrArg Prod.snd (lexemes_local h x), ?_⟩
  have hbody : lineEnd (body a ++ ['\n'.toUInt8]) = ['\n'.toUInt8] := by rw [← body_local, lineEnd_body, h]
  simp only [firstLine, blank_local, width_local, body_local, lexemes_local hbody x]

/-- Whole lines. -/
inductive Complete : List UInt8 → Prop
  | nil : Complete []
  | line {a src : List UInt8} (h : lineEnd (a ++ ['\n'.toUInt8]) = ['\n'.toUInt8]) (hsrc : Complete src) :
      Complete (a ++ '\n'.toUInt8 :: src)

theorem lines_append (h : Complete a) (src : List UInt8) : lines (a ++ src) = lines a ++ lines src := by
  induction h with
  | nil => rfl
  | @line a rest h _ ih =>
    rw [List.append_assoc, List.cons_append, lines_eq, lines_eq (a ++ '\n'.toUInt8 :: rest), (line_local h _).1,
      (line_local h _).2, (line_local h rest).1, (line_local h rest).2, List.tail_cons, List.tail_cons,
      ih, List.append_assoc]

end GeckoOS.Gk
