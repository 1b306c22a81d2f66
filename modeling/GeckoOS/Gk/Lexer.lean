import GeckoOS.Gk.State
import GeckoOS.Lib.Programs
import Mathlib.Data.List.TakeWhile

/-! The lexer of gk_lexer.c. The position in the source is the list of the bytes
from there on. Each pass of a loop takes one unit of fuel. -/
namespace GeckoOS.Gk
open Lib

def isDigit (c : UInt8) : Bool := '0'.toUInt8 ≤ c && c ≤ '9'.toUInt8
def isAlpha (c : UInt8) : Bool :=
  'a'.toUInt8 ≤ c && c ≤ 'z'.toUInt8 || 'A'.toUInt8 ≤ c && c ≤ 'Z'.toUInt8 || c == '_'.toUInt8
def isAlnum (c : UInt8) : Bool := isAlpha c || isDigit c
def isSpace (c : UInt8) : Bool := c == ' '.toUInt8 || c == '\t'.toUInt8

def backslash : UInt8 := 92
/-- The two characters that open and close a string. -/
def isQuote (c : UInt8) : Bool := c == 34 || c == 39

def keywords : List (List UInt8 × TokenType) :=
  [(ascii "if", .kwIf), (ascii "elif", .kwElif), (ascii "else", .kwElse), (ascii "while", .kwWhile),
   (ascii "for", .kwFor), (ascii "in", .kwIn), (ascii "def", .kwDef), (ascii "return", .kwReturn),
   (ascii "break", .kwBreak), (ascii "continue", .kwContinue), (ascii "and", .and), (ascii "or", .or),
   (ascii "not", .not), (ascii "True", .kwTrue), (ascii "False", .kwFalse)]

/-- The search through KEYWORDS. -/
def wordType (buf : List UInt8) : TokenType := (keywords.lookup buf).getD .ident

/-- The operators of two characters, all of which end in =, and the others. -/
def doubles : List (UInt8 × TokenType) :=
  [('='.toUInt8, .eq), ('!'.toUInt8, .neq), ('<'.toUInt8, .le), ('>'.toUInt8, .ge)]
def singles : List (UInt8 × TokenType) :=
  [('+'.toUInt8, .plus), ('-'.toUInt8, .minus), ('*'.toUInt8, .star), ('/'.toUInt8, .slash),
   ('%'.toUInt8, .percent), ('<'.toUInt8, .lt), ('>'.toUInt8, .gt), ('='.toUInt8, .assign),
   ('('.toUInt8, .lparen), (')'.toUInt8, .rparen), (','.toUInt8, .comma), (':'.toUInt8, .colon)]

/-- MAX_INDENT. -/
def maxIndent : Nat := 64

def emitToken (t : Token) : GkM Bool := fun s =>
  if maxTokens ≤ s.tokens.length then .ok false { s with error := some .tooManyTokens }
  else .ok true { s with tokens := s.tokens ++ [t] }

def emit (t : TokenType) (line : Nat) : GkM Bool := emitToken ⟨t, 0, [], line⟩
def emitInt (v : Int) (line : Nat) : GkM Bool := emitToken ⟨.int, v, [], line⟩
def emitStr (t : TokenType) (str : List UInt8) (line : Nat) : GkM Bool := emitToken ⟨t, 0, str, line⟩

/-- `if (!emit(..)) return false`. -/
def orFail (e : GkM Bool) : GkM Unit := do
  if !(← e) then throw .failed

/-- `val = val * 10 + (src[i] - '0')` over the digits, in 32 bits. -/
def digitsVal (digits : List UInt8) : Int :=
  digits.foldl (fun val c => wrap32 (val * 10 + ((c.toNat : Int) - 48))) 0

def unescape (c : UInt8) : UInt8 :=
  if c = 'n'.toUInt8 then '\n'.toUInt8 else if c = 't'.toUInt8 then '\t'.toUInt8 else c

/-- The loop of a string: `buf` when it stops, and the source from there on. -/
def strLoop (quote : UInt8) : List UInt8 → List UInt8 → List UInt8 × List UInt8
  | [], buf => (buf, [])
  | [c], buf => if c = quote then (buf, [c]) else (buf ++ [c], [])
  | c :: d :: src, buf =>
    if c = quote then (buf, c :: d :: src)
    else if c = backslash then
      if maxStr - 1 ≤ buf.length + 1 then (buf ++ [unescape d], src) else strLoop quote src
        (buf ++ [unescape d])
    else if maxStr - 1 ≤ buf.length + 1 then (buf ++ [c], d :: src)
    else strLoop quote (d :: src) (buf ++ [c])

/-- What one pass of the token loop emits: integers, strings and words are
checked for the room that they need, operators are not. -/
inductive Lexeme where
  | nothing
  | int (v : Int)
  | text (type : TokenType) (str : List UInt8)
  | operator (type : TokenType)
  | unknown

/-- The branches for operators and punctuation. -/
def operatorLexeme (c : UInt8) (src : List UInt8) : Lexeme × List UInt8 :=
  match if src.headD 0 = '='.toUInt8 then doubles.lookup c else none with
  | some t => (.operator t, src.tail)
  | none =>
    match singles.lookup c with
    | some t => (.operator t, src)
    | none => (.unknown, src)

/-- One pass of the token loop at `c`, with the source behind the token. -/
def lexeme (c : UInt8) (src : List UInt8) : Lexeme × List UInt8 :=
  if isSpace c then (.nothing, src)
  else if c = '#'.toUInt8 then (.nothing, src.dropWhile (· != '\n'.toUInt8))
  else if isDigit c then
    (.int (digitsVal ((c :: src).takeWhile isDigit)), (c :: src).dropWhile isDigit)
  else if isQuote c then
    let (buf, src) := strLoop c src []
    -- the closing quote, or whatever stands where the buffer was full
    (.text .str buf, src.tail)
  else if isAlpha c then
    let buf := ((c :: src).take 63).takeWhile isAlnum
    (.text (wordType buf) buf, (c :: src).drop buf.length)
  else operatorLexeme c src

def emitLexeme (line : Nat) : Lexeme → GkM Unit
  | .nothing => return ()
  | .int v => orFail (emitInt v line)
  | .text t str => orFail (emitStr t str line)
  | .operator t => do
    let _ ← emit t line
  | .unknown => fail .unknownCharacter

/-- The token loop of one line; it stops in front of the line's end. -/
def tokenLoop (line : Nat) : Nat → List UInt8 → GkM (List UInt8)
  | _, [] => return []
  | 0, _ :: _ => throw .outOfFuel
  | fuel+1, c :: src =>
    if c = '\n'.toUInt8 then return c :: src
    else do
      emitLexeme line (lexeme c src).1
      tokenLoop line fuel (lexeme c src).2

/-- DEDENT tokens down to the indentation of the line; the stack has its top in front. -/
def popIndents (indent line : Nat) : List Nat → GkM (List Nat)
  | [] => return []
  | top :: stack => do
    if indent < top then
      orFail (emit .dedent line)
      popIndents indent line stack
    else return top :: stack

/-- The tokens for a line's indentation. The push does not look at MAX_INDENT. -/
def setIndent (indent line : Nat) (stack : List Nat) : GkM (List Nat) := do
  if stack.headD 0 < indent then
    if maxIndent ≤ stack.length then throw .overrun
    orFail (emit .indent line)
    return indent :: stack
  else popIndents indent line stack

/-- DEDENT tokens for what is still open at the end. -/
def closeIndents (line : Nat) : List Nat → GkM Unit
  | [] => return ()
  | [_] => return ()
  | _ :: stack => do
    orFail (emit .dedent line)
    closeIndents line stack

/-- The loop over the lines. -/
def lineLoop : Nat → Nat → List Nat → List UInt8 → GkM Unit
  | _, line, stack, [] => do
    closeIndents line stack
    orFail (emit .eof line)
  | 0, _, _, _ :: _ => throw .outOfFuel
  | fuel+1, line, stack, c :: src => do
    let spaces := ((c :: src).takeWhile (· == ' '.toUInt8)).length
    let src := (c :: src).drop spaces
    let tabs := (src.takeWhile (· == '\t'.toUInt8)).length
    let src := src.drop tabs
    if src = [] ∨ src.headD 0 = '\n'.toUInt8 ∨ src.headD 0 = '#'.toUInt8 then
      let src := src.dropWhile (· != '\n'.toUInt8)
      lineLoop fuel (if src = [] then line else line + 1) stack src.tail
    else
      let stack ← setIndent (spaces + 4 * tabs) line stack
      let src ← tokenLoop line (src.length + 1) src
      orFail (emit .newline line)
      lineLoop fuel (if src = [] then line else line + 1) stack src.tail

/-- `gk_lex`: a normal end is the result true. -/
def gkLex (src : List UInt8) : GkM Unit := do
  modify fun s => { s with tokens := [], tokPos := 0 }
  lineLoop (src.length + 1) 1 [0] src

/-! What is emitted is never taken back. -/

variable {s s' : Run}

theorem orFail_emit (t : Token) (s : Run) :
    orFail (emitToken t) s = if maxTokens ≤ s.tokens.length then .error .failed
      { s with error := some .tooManyTokens }
      else .ok () { s with tokens := s.tokens ++ [t] } := by
  by_cases h : maxTokens ≤ s.tokens.length
  · have he : emitToken t s = .ok false { s with error := some .tooManyTokens } := if_pos h
    rw [if_pos h, orFail, bind_ok he]
    rfl
  · have he : emitToken t s = .ok true { s with tokens := s.tokens ++ [t] } := if_neg h
    rw [if_neg h, orFail, bind_ok he]
    rfl

theorem orFail_emit_eq_ok {t : Token} (h : orFail (emitToken t) s = .ok () s') :
    s.tokens.length < maxTokens ∧ s' = { s with tokens := s.tokens ++ [t] } := by
  rw [orFail_emit] at h
  split at h
  · cases h
  · next hroom => exact ⟨by omega, (EStateM.Result.ok.inj h).2.symm⟩

/-- Only tokens are added and errors set. -/
def Emits (s s' : Run) : Prop := s.tokens <+: s'.tokens ∧ { s' with tokens := s.tokens, error := s.error } = s

theorem Emits.refl (s : Run) : Emits s s := ⟨List.prefix_refl _, rfl⟩

theorem Emits.trans {s s' s'' : Run} (h : Emits s s') (h' : Emits s' s'') : Emits s s'' := by
  refine ⟨h.1.trans h'.1, ?_⟩
  rw [← h.2, ← h'.2]

private theorem emits_add (t : Token) (s : Run) : Emits s { s with tokens := s.tokens ++ [t] } :=
  ⟨List.prefix_append _ _, rfl⟩

theorem emits_orFail (t : Token) : Keeps Emits (orFail (emitToken t)) := by
  intro s
  rw [orFail_emit]
  split
  · exact ⟨List.prefix_refl _, rfl⟩
  · exact emits_add t s

theorem emits_emit (t : TokenType) (line : Nat) : Keeps Emits (emit t line) := by
  intro s
  unfold emit emitToken
  split
  · exact ⟨List.prefix_refl _, rfl⟩
  · exact emits_add _ s

theorem emits_emitLexeme (line : Nat) (l : Lexeme) : Keeps Emits (emitLexeme line l) := by
  cases l with
  | nothing => exact .pure Emits.refl _
  | int v => exact emits_orFail _
  | text t str => exact emits_orFail _
  | operator t => exact .bind (fun _ _ _ => Emits.trans) (emits_emit _ _) fun _ => .pure Emits.refl _
  | unknown => exact fun s => ⟨List.prefix_refl _, rfl⟩

theorem emits_tokenLoop (line fuel : Nat) (src : List UInt8) : Keeps Emits (tokenLoop line fuel src) := by
  induction fuel generalizing src with
  | zero =>
    cases src with
    | nil => exact .pure Emits.refl _
    | cons c src => exact .throw Emits.refl _
  | succ fuel ih =>
    cases src with
    | nil => exact .pure Emits.refl _
    | cons c src =>
      rw [tokenLoop]
      split
      · exact .pure Emits.refl _
      · exact .bind (fun _ _ _ => Emits.trans) (emits_emitLexeme line _) fun _ => ih _

/-- The token that a pass emits if there is room. -/
def Lexeme.token (line : Nat) : Lexeme → Option Token
  | nothing => none
  | int v => some ⟨.int, v, [], line⟩
  | text t str => some ⟨t, 0, str, line⟩
  | operator t => some ⟨t, 0, [], line⟩
  | unknown => none

theorem emitLexeme_room {l : Lexeme} {t : Token} {line : Nat} (ht : l.token line = some t)
    (hroom : s.tokens.length < maxTokens) : emitLexeme line l s =
      .ok () { s with tokens := s.tokens ++ [t] } := by
  have hfull : ¬ maxTokens ≤ s.tokens.length := by omega
  cases l with
  | nothing => cases ht
  | unknown => cases ht
  | int v =>
    obtain rfl := Option.some.inj ht
    rw [emitLexeme, emitInt, orFail_emit, if_neg hfull]
  | text t str =>
    obtain rfl := Option.some.inj ht
    rw [emitLexeme, emitStr, orFail_emit, if_neg hfull]
  | operator t =>
    obtain rfl := Option.some.inj ht
    exact bind_ok (if_neg hfull)

/-! Each pass of the token loop takes at least one byte, so the fuel suffices. -/

theorem strLoop_suffix (quote : UInt8) (src buf : List UInt8) : (strLoop quote src buf).2 <:+ src := by
  fun_induction strLoop quote src buf with
  | case1 | case2 | case4 => exact List.suffix_refl _
  | case3 => exact List.nil_suffix
  | case5 => exact (List.suffix_cons _ _).trans (List.suffix_cons _ _)
  | case6 _ _ _ _ _ ih => exact ih.trans ((List.suffix_cons _ _).trans (List.suffix_cons _ _))
  | case7 => exact List.suffix_cons _ _
  | case8 _ _ _ _ _ _ _ ih => exact ih.trans (List.suffix_cons _ _)

theorem lexeme_suffix (c : UInt8) (src : List UInt8) : (lexeme c src).2 <:+ src := by
  unfold lexeme
  split
  · exact List.suffix_refl _
  split
  · exact List.dropWhile_suffix _
  split
  · next hd =>
    rw [List.dropWhile_cons_of_pos hd]
    exact List.dropWhile_suffix _
  split
  · exact (List.tail_suffix _).trans (strLoop_suffix c src [])
  split
  · next ha =>
    have hal : isAlnum c = true := by simp [isAlnum, ha]
    dsimp only
    rw [List.take_succ_cons, List.takeWhile_cons_of_pos hal, List.length_cons, List.drop_succ_cons]
    exact List.drop_suffix _ _
  unfold operatorLexeme
  split
  · exact List.tail_suffix _
  split
  · exact List.suffix_refl _
  · exact List.suffix_refl _

/-- A pass fails or goes on. -/
theorem emitLexeme_returns (line : Nat) (l : Lexeme) (s : Run) :
    ∃ s', emitLexeme line l s = .ok () s' ∨ emitLexeme line l s = .error .failed s' := by
  cases l with
  | nothing => exact ⟨s, .inl rfl⟩
  | int v =>
    rw [emitLexeme, emitInt, orFail_emit]
    split
    · exact ⟨_, .inr rfl⟩
    · exact ⟨_, .inl rfl⟩
  | text t str =>
    rw [emitLexeme, emitStr, orFail_emit]
    split
    · exact ⟨_, .inr rfl⟩
    · exact ⟨_, .inl rfl⟩
  | operator t =>
    by_cases h : maxTokens ≤ s.tokens.length
    · exact ⟨_, .inl (bind_ok (if_pos h))⟩
    · exact ⟨_, .inl (bind_ok (if_neg h))⟩
  | unknown => exact ⟨_, .inr rfl⟩

/-- The token loop ends by a failure or in front of the line's end. -/
theorem tokenLoop_returns (line : Nat) {fuel : Nat} {src : List UInt8} (hf : src.length ≤ fuel) (s : Run) :
    ∃ s', (∃ src', tokenLoop line fuel src s = .ok src' s' ∧ src' <:+ src ∧
      (src' = [] ∨ src'.head? = some '\n'.toUInt8)) ∨ tokenLoop line fuel src s = .error .failed s' := by
  induction fuel generalizing src s with
  | zero =>
    obtain rfl := List.length_eq_zero_iff.mp (Nat.le_zero.mp hf)
    exact ⟨s, .inl ⟨[], rfl, List.suffix_refl _, .inl rfl⟩⟩
  | succ fuel ih =>
    cases src with
    | nil => exact ⟨s, .inl ⟨[], rfl, List.suffix_refl _, .inl rfl⟩⟩
    | cons c src =>
      rw [tokenLoop]
      split
      · next hc => exact ⟨s, .inl ⟨c :: src, rfl, List.suffix_refl _, .inr (by simp [hc])⟩⟩
      · have hsuf := lexeme_suffix c src
        obtain ⟨s₁, h | h⟩ := emitLexeme_returns line (lexeme c src).1 s
        · rw [bind_ok h]
          have hlen : (lexeme c src).2.length ≤ fuel := Nat.le_trans hsuf.length_le (Nat.le_of_succ_le_succ hf)
          obtain ⟨s', ⟨src', h', hs', hend⟩ | h'⟩ := ih hlen s₁
          · exact ⟨s', .inl ⟨src', h', (hs'.trans hsuf).trans (List.suffix_cons _ _), hend⟩⟩
          · exact ⟨s', .inr h'⟩
        · exact ⟨s₁, .inr (bind_error h)⟩

end GeckoOS.Gk
