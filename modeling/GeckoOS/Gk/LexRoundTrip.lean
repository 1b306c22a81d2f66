import GeckoOS.Gk.Lexer

/-! Tokens written on one line and read back: exactly those that the buffers of
the lexer have room for come back as they were. -/
namespace GeckoOS.Gk
open Lib

/-- A token as it is written. -/
inductive Written where
  | word (first : UInt8) (rest : List UInt8) (hfirst : isAlpha first = true)
      (hrest : ∀ c ∈ rest, isAlnum c = true)
  | int (digits : List UInt8) (hne : digits ≠ []) (hdigits : ∀ c ∈ digits, isDigit c = true)
  | str (quote : UInt8) (content : List UInt8) (hquote : isQuote quote = true) (hcontent : 0 ∉ content)
  | double (c : UInt8) (t : TokenType) (h : (c, t) ∈ doubles)
  | single (c : UInt8) (t : TokenType) (h : (c, t) ∈ singles)

/-- How a byte of a string is written. -/
def escape (quote b : UInt8) : List UInt8 :=
  if b = '\n'.toUInt8 then [backslash, 'n'.toUInt8]
  else if b = '\t'.toUInt8 then [backslash, 't'.toUInt8]
  else if b = backslash ∨ b = quote then [backslash, b]
  else [b]

/-- The number that decimal digits denote. -/
def decimal (digits : List UInt8) : Int := digits.foldl (fun v c => v * 10 + ((c.toNat : Int) - 48)) 0

namespace Written

def print : Written → List UInt8
  | word first rest _ _ => first :: rest
  | int digits _ _ => digits
  | str quote content _ _ => quote :: content.flatMap (escape quote) ++ [quote]
  | double c _ _ => [c, '='.toUInt8]
  | single c _ _ => [c]

/-- The token that was meant. -/
def token : Written → Token
  | word first rest _ _ => ⟨wordType (first :: rest), 0, first :: rest, 1⟩
  | int digits _ _ => ⟨.int, decimal digits, [], 1⟩
  | str _ content _ _ => ⟨.str, 0, content, 1⟩
  | double _ t _ => ⟨t, 0, [], 1⟩
  | single _ t _ => ⟨t, 0, [], 1⟩

/-- At most 63 bytes of a word, 31 bits of an integer and 255 bytes of a string. -/
def Fits : Written → Prop
  | word first rest _ _ => (first :: rest).length ≤ 63
  | int digits _ _ => decimal digits < 2^31
  | str _ content _ _ => content.length ≤ 255
  | double _ _ _ => True
  | single _ _ _ => True

/-- What the lexer makes of it. -/
def read : Written → Lexeme
  | word first rest _ _ => .text (wordType ((first :: rest).take 63)) ((first :: rest).take 63)
  | int digits _ _ => .int (wrap32 (decimal digits))
  | str _ content _ _ => .text .str (content.take 255)
  | double _ t _ => .operator t
  | single _ t _ => .operator t

end Written

/-- One line, with single spaces between the tokens. -/
def printLine : List Written → List UInt8
  | [] => []
  | [t] => t.print
  | t :: ts => t.print ++ ' '.toUInt8 :: printLine ts

/-- The end of the line, or a space. -/
def Ends (src : List UInt8) : Prop := src = [] ∨ src.head? = some ' '.toUInt8

private theorem ends_takeWhile {p : UInt8 → Bool} (hp : p ' '.toUInt8 = false) {l src : List UInt8}
    (hl : ∀ c ∈ l, p c = true) (hs : Ends src) :
    (l ++ src).takeWhile p = l ∧ (l ++ src).dropWhile p = src := by
  have hsrc : src.takeWhile p = [] ∧ src.dropWhile p = src := by
    cases src with
    | nil => exact ⟨rfl, rfl⟩
    | cons c src =>
      obtain rfl : c = ' '.toUInt8 := by simpa [Ends] using hs
      rw [List.takeWhile_cons_of_neg (by simp [hp]), List.dropWhile_cons_of_neg (by simp [hp])]
      exact ⟨rfl, rfl⟩
  rw [List.takeWhile_append_of_pos hl, List.dropWhile_append_of_pos hl, hsrc.1, hsrc.2, List.append_nil]
  exact ⟨rfl, rfl⟩

/-! Integers. -/

private theorem wrap32_step (z d : Int) : wrap32 (wrap32 z * 10 + d) = wrap32 (z * 10 + d) := by
  unfold wrap32
  rw [← Int.bmod_add_bmod, Int.bmod_mul_bmod, Int.bmod_add_bmod]

theorem digitsVal_eq (digits : List UInt8) : digitsVal digits = wrap32 (decimal digits) := by
  have hgen : ∀ z, digits.foldl (fun val c => wrap32 (val * 10 + ((c.toNat : Int) - 48))) (wrap32 z) =
      wrap32 (digits.foldl (fun v c => v * 10 + ((c.toNat : Int) - 48)) z) := by
    induction digits with
    | nil => exact fun z => rfl
    | cons c digits ih =>
      intro z
      rw [List.foldl_cons, List.foldl_cons, wrap32_step, ih]
  exact hgen 0

private theorem decimal_nonneg {digits : List UInt8} (h : ∀ c ∈ digits, isDigit c = true) :
    0 ≤ decimal digits := by
  have hgen : ∀ z : Int, 0 ≤ z → 0 ≤ digits.foldl (fun v c => v * 10 + ((c.toNat : Int) - 48)) z := by
    induction digits with
    | nil => exact fun z hz => hz
    | cons c digits ih =>
      obtain ⟨hc, hrest⟩ := List.forall_mem_cons.mp h
      intro z hz
      have hlo : 48 ≤ c.toNat := by
        simp only [isDigit, Bool.and_eq_true, decide_eq_true_eq] at hc
        exact hc.1
      rw [List.foldl_cons]
      exact ih hrest _ (by omega)
  exact hgen 0 (by decide)

/-! Strings. -/

private theorem strLoop_quote (quote : UInt8) (tail buf : List UInt8) :
    strLoop quote (quote :: tail) buf = (buf, quote :: tail) := by
  cases tail <;> simp [strLoop]

private theorem strLoop_escape {quote b : UInt8} (hq : isQuote quote = true) {src : List UInt8} (hs : src ≠ [])
    (buf : List UInt8) : strLoop quote (escape quote b ++ src) buf =
      if maxStr - 1 ≤ buf.length + 1 then (buf ++ [b], src) else strLoop quote src (buf ++ [b]) := by
  have hback : backslash ≠ quote := by
    rintro rfl
    exact absurd hq (by decide)
  have hescaped : ∀ d, unescape d = b → strLoop quote (backslash :: d :: src) buf =
      if maxStr - 1 ≤ buf.length + 1 then (buf ++ [b], src) else strLoop quote src (buf ++ [b]) := by
    rintro d rfl
    rw [strLoop, if_neg hback, if_pos rfl]
  unfold escape
  split
  · next hb => exact hescaped _ (hb ▸ rfl)
  split
  · next hb => exact hescaped _ (hb ▸ rfl)
  split
  · next hn ht hb =>
    have hd : b ≠ 'n'.toUInt8 ∧ b ≠ 't'.toUInt8 := by
      rcases hb with rfl | rfl
      · decide
      · constructor <;> rintro rfl <;> exact absurd hq (by decide)
    exact hescaped b (by rw [unescape, if_neg hd.1, if_neg hd.2])
  · next hn ht hb =>
    obtain ⟨d, src, rfl⟩ := List.exists_cons_of_ne_nil hs
    rw [List.singleton_append, strLoop, if_neg (fun h => hb (.inr h)), if_neg (fun h => hb (.inl h))]

private theorem strLoop_content {quote : UInt8} (hq : isQuote quote = true) (content tail buf : List UInt8)
    (hb : buf.length < 255) :
    (strLoop quote (content.flatMap (escape quote) ++ quote :: tail) buf).1 =
        buf ++ content.take (255 - buf.length) ∧
      (buf.length + content.length ≤ 255 →
        (strLoop quote (content.flatMap (escape quote) ++ quote :: tail) buf).2 = quote :: tail) := by
  induction content generalizing buf with
  | nil =>
    rw [List.flatMap_nil, List.nil_append, strLoop_quote]
    simp
  | cons b content ih =>
    rw [List.flatMap_cons, List.append_assoc, strLoop_escape hq (by simp)]
    split
    · next hfull =>
      have hlen : 255 - buf.length = 1 := by
        change 255 ≤ _ at hfull
        omega
      refine ⟨by rw [hlen]; rfl, fun hle => ?_⟩
      obtain rfl : content = [] := by
        rw [List.length_cons] at hle
        exact List.length_eq_zero_iff.mp (by omega)
      rfl
    · next hroom =>
      change ¬ 255 ≤ _ at hroom
      obtain ⟨h₁, h₂⟩ := ih (buf ++ [b]) (by rw [List.length_append]; change _ + 1 < _; omega)
      rw [List.length_append, List.length_singleton] at h₁ h₂
      refine ⟨?_, fun hle => h₂ (by rw [List.length_cons] at hle; omega)⟩
      rw [h₁, show 255 - buf.length = 255 - (buf.length + 1) + 1 by omega, List.take_succ_cons]
      simp

/-! Words. -/

private theorem take_takeWhile {p : UInt8 → Bool} (hp : p ' '.toUInt8 = false) {l tail : List UInt8}
    (hl : ∀ c ∈ l, p c = true) (ht : Ends tail) (n : Nat) : ((l ++ tail).take n).takeWhile p = l.take n := by
  rw [List.take_append]
  have hcut : Ends (tail.take (n - l.length)) := by
    cases tail with
    | nil => exact .inl List.take_nil
    | cons c tail =>
      cases n - l.length with
      | zero => exact .inl rfl
      | succ k => exact .inr (by simpa [Ends] using ht)
  exact (ends_takeWhile hp (fun c hc => hl c (List.mem_of_mem_take hc)) hcut).1

/-! Every byte of a class takes the branch of its class. -/

private theorem forall_byte {p : UInt8 → Bool} (h : (List.range 256).all (fun n => p (.ofNat n)) = true)
    (c : UInt8) :
    p c = true := by
  have hc := List.all_eq_true.mp h c.toNat (List.mem_range.mpr c.toNat_lt)
  rwa [UInt8.ofNat_toNat] at hc

private def plain (c : UInt8) : Bool := !isSpace c && c != '#'.toUInt8 && c != '\n'.toUInt8

private theorem digit_route (c : UInt8) : (!isDigit c || plain c) = true := by
  revert c
  exact forall_byte (by decide +kernel)

private theorem quote_route (c : UInt8) : (!isQuote c || (plain c && !isDigit c)) = true := by
  revert c
  exact forall_byte (by decide +kernel)

private theorem alpha_route (c : UInt8) : (!isAlpha c || (plain c && !isDigit c && !isQuote c)) = true := by
  revert c
  exact forall_byte (by decide +kernel)

private theorem operator_route : ∀ x ∈ doubles ++ singles,
    plain x.1 = true ∧ isDigit x.1 = false ∧ isQuote x.1 = false ∧ isAlpha x.1 = false := by
  decide +kernel

private theorem lookup_doubles : ∀ x ∈ doubles, doubles.lookup x.1 = some x.2 := by decide +kernel

private theorem lookup_singles : ∀ x ∈ singles, singles.lookup x.1 = some x.2 := by decide +kernel

private theorem ends_headD {tail : List UInt8} (ht : Ends tail) : tail.headD 0 ≠ '='.toUInt8 := by
  rcases ht with rfl | ht
  · decide
  · cases tail with
    | nil => cases ht
    | cons c tail =>
      obtain rfl : c = ' '.toUInt8 := by simpa using ht
      rw [List.headD_cons]
      decide

private theorem plain_spec {c : UInt8} (h : plain c = true) :
    ¬ isSpace c = true ∧ c ≠ '#'.toUInt8 ∧ c ≠ '\n'.toUInt8 := by
  simp only [plain, Bool.and_eq_true, bne_iff_ne, Bool.not_eq_true'] at h
  exact ⟨by simp [h.1.1], h.1.2, h.2⟩

section branches
variable {c : UInt8} (src : List UInt8)

private theorem lexeme_int (hc : isDigit c = true) : plain c = true ∧ lexeme c src =
    (.int (digitsVal ((c :: src).takeWhile isDigit)), (c :: src).dropWhile isDigit) := by
  have hp : plain c = true := by simpa [hc] using digit_route c
  obtain ⟨h₁, h₂, -⟩ := plain_spec hp
  exact ⟨hp, by rw [lexeme, if_neg h₁, if_neg h₂, if_pos hc]⟩

private theorem lexeme_str (hc : isQuote c = true) : plain c = true ∧ lexeme c src =
    (.text .str (strLoop c src []).1, (strLoop c src []).2.tail) := by
  have hr : plain c = true ∧ isDigit c = false := by simpa [hc] using quote_route c
  obtain ⟨h₁, h₂, -⟩ := plain_spec hr.1
  exact ⟨hr.1, by rw [lexeme, if_neg h₁, if_neg h₂, if_neg (by simp [hr.2]), if_pos hc]⟩

private theorem lexeme_word (hc : isAlpha c = true) : plain c = true ∧ lexeme c src =
    (.text (wordType (((c :: src).take 63).takeWhile isAlnum)) (((c :: src).take 63).takeWhile isAlnum),
      (c :: src).drop (((c :: src).take 63).takeWhile isAlnum).length) := by
  have hr : (plain c = true ∧ isDigit c = false) ∧ isQuote c = false := by simpa [hc] using alpha_route c
  obtain ⟨h₁, h₂, -⟩ := plain_spec hr.1.1
  refine ⟨hr.1.1, ?_⟩
  rw [lexeme, if_neg h₁, if_neg h₂, if_neg (by simp [hr.1.2]), if_neg (by simp [hr.2]), if_pos hc]

private theorem lexeme_operator {t : TokenType} (hc : (c, t) ∈ doubles ++ singles) : plain c = true ∧
    lexeme c src = operatorLexeme c src := by
  obtain ⟨hp, hd, hq, ha⟩ := operator_route _ hc
  obtain ⟨h₁, h₂, -⟩ := plain_spec hp
  refine ⟨hp, ?_⟩
  rw [lexeme, if_neg h₁, if_neg h₂, if_neg (by simp [hd]), if_neg (by simp [hq]), if_neg (by simp [ha])]

end branches

/-- One pass of the token loop on a written token. -/
private theorem lexeme_print (t : Written) {tail : List UInt8} (ht : Ends tail) :
    ∃ c cs, t.print = c :: cs ∧ plain c = true ∧ (lexeme c (cs ++ tail)).1 = t.read ∧
      (t.Fits → (lexeme c (cs ++ tail)).2 = tail) := by
  cases t with
  | word first rest hfirst hrest =>
    obtain ⟨hp, he⟩ := lexeme_word (rest ++ tail) hfirst
    have hall : ∀ c ∈ first :: rest, isAlnum c = true :=
      List.forall_mem_cons.mpr ⟨by simp [isAlnum, hfirst], hrest⟩
    have hbuf : ((first :: (rest ++ tail)).take 63).takeWhile isAlnum = (first :: rest).take 63 :=
      take_takeWhile (by decide) hall ht 63
    rw [hbuf] at he
    refine ⟨first, rest, rfl, hp, by rw [he]; rfl, fun hfit => ?_⟩
    rw [he, List.take_of_length_le hfit]
    exact List.drop_left
  | int digits hne hdigits =>
    obtain ⟨c, cs, rfl⟩ := List.exists_cons_of_ne_nil hne
    obtain ⟨hp, he⟩ := lexeme_int (cs ++ tail) (hdigits c (by simp))
    obtain ⟨h₁, h₂⟩ := ends_takeWhile (by decide) hdigits ht
    rw [List.cons_append] at h₁ h₂
    rw [h₁, h₂, digitsVal_eq] at he
    exact ⟨c, cs, rfl, hp, by rw [he]; rfl, fun _ => by rw [he]⟩
  | str quote content hquote hcontent =>
    obtain ⟨hp, he⟩ := lexeme_str (content.flatMap (escape quote) ++ [quote] ++ tail) hquote
    obtain ⟨h₁, h₂⟩ := strLoop_content hquote content tail [] (by decide)
    rw [List.append_assoc, List.singleton_append, h₁] at he
    refine ⟨quote, content.flatMap (escape quote) ++ [quote], rfl, hp, ?_, fun hfit => ?_⟩
    · rw [List.append_assoc, List.singleton_append, he]
      rfl
    · rw [List.append_assoc, List.singleton_append, he, h₂ (by rw [List.length_nil, Nat.zero_add]; exact hfit)]
      rfl
  | double c t h =>
    obtain ⟨hp, he⟩ := lexeme_operator ('='.toUInt8 :: tail) (List.mem_append_left _ h)
    rw [operatorLexeme, List.headD_cons, if_pos rfl, lookup_doubles _ h] at he
    exact ⟨c, ['='.toUInt8], rfl, hp, by rw [List.singleton_append, he]; rfl,
      fun _ => by rw [List.singleton_append, he]; rfl⟩
  | single c t h =>
    obtain ⟨hp, he⟩ := lexeme_operator tail (List.mem_append_right _ h)
    rw [operatorLexeme, if_neg (ends_headD ht)] at he
    dsimp only at he
    rw [lookup_singles _ h] at he
    exact ⟨c, [], rfl, hp, by rw [List.nil_append, he]; rfl, fun _ => by rw [List.nil_append, he]⟩

/-! The line. -/

private theorem length_le_of_take_eq {n : Nat} {l : List UInt8} (h : l.take n = l) : l.length ≤ n := by
  rw [← h]
  exact List.length_take_le n l

/-- What is read is a token, and the one that was meant exactly if it fits. -/
private theorem read_token (t : Written) :
    ∃ x, t.read.token 1 = some x ∧ (x = t.token ↔ t.Fits) := by
  cases t with
  | word first rest hfirst hrest =>
    refine ⟨_, rfl, fun h => ?_, fun h => ?_⟩
    · exact length_le_of_take_eq (congrArg Token.strVal h)
    · have hstr : (first :: rest).take 63 = first :: rest := List.take_of_length_le h
      rw [hstr]
      rfl
  | int digits hne hdigits =>
    refine ⟨_, rfl, fun h => ?_, fun h => ?_⟩
    · have hval : wrap32 (decimal digits) = decimal digits := congrArg Token.intVal h
      have hlt := (wrap32_bounds (decimal digits)).2
      rwa [hval] at hlt
    · have hlo := decimal_nonneg hdigits
      have hval : wrap32 (decimal digits) = decimal digits := wrap32_eq ⟨by omega, h⟩
      rw [hval]
      rfl
  | str quote content hquote hcontent =>
    refine ⟨_, rfl, fun h => ?_, fun h => ?_⟩
    · exact length_le_of_take_eq (congrArg Token.strVal h)
    · have hstr : content.take 255 = content := List.take_of_length_le h
      rw [hstr]
      rfl
  | double c t h => exact ⟨_, rfl, iff_of_true rfl trivial⟩
  | single c t h => exact ⟨_, rfl, iff_of_true rfl trivial⟩

/-- A token that fits is read as it was meant, on whatever line it stands. -/
theorem lexeme_written {t : Written} (hfit : t.Fits) {tail : List UInt8} (ht : Ends tail) :
    ∃ c cs l, t.print = c :: cs ∧ (¬ isSpace c = true ∧ c ≠ '#'.toUInt8 ∧ c ≠ '\n'.toUInt8) ∧
      lexeme c (cs ++ tail) = (l, tail) ∧ ∀ line, l.token line = some { t.token with line := line } := by
  obtain ⟨c, cs, hprint, hp, hread, hrest⟩ := lexeme_print t ht
  obtain ⟨x, hx, hiff⟩ := read_token t
  refine ⟨c, cs, t.read, hprint, plain_spec hp, Prod.ext hread (hrest hfit), fun line => ?_⟩
  rw [hiff.mpr hfit] at hx
  have hline : t.read.token line = (t.read.token 1).map fun x => { x with line := line } := by
    cases t <;> rfl
  rw [hline, hx, Option.map_some]

/-- What follows a token of the line. -/
private def lineTail : List Written → List UInt8
  | [] => []
  | t :: ts => ' '.toUInt8 :: printLine (t :: ts)

private theorem printLine_cons (t : Written) (ts : List Written) :
    printLine (t :: ts) = t.print ++ lineTail ts := by
  cases ts with
  | nil => rw [printLine, lineTail, List.append_nil]
  | cons t' ts =>
    rw [printLine, lineTail]
    simp

private theorem ends_lineTail (ts : List Written) : Ends (lineTail ts) := by
  cases ts with
  | nil => exact .inl rfl
  | cons t ts => exact .inr rfl

variable {s s' : Run}

/-- The space in front of a token takes a pass of its own. -/
private theorem tokenLoop_tail (ts : List Written) {fuel : Nat} (hf : (lineTail ts).length ≤ fuel) :
    ∃ fuel', (printLine ts).length ≤ fuel' ∧ tokenLoop 1 fuel (lineTail ts) =
      tokenLoop 1 fuel' (printLine ts) := by
  cases ts with
  | nil =>
    refine ⟨fuel, Nat.zero_le _, rfl⟩
  | cons t ts =>
    obtain ⟨fuel, rfl⟩ : ∃ m, fuel = m + 1 := ⟨fuel - 1, by rw [lineTail, List.length_cons] at hf; omega⟩
    refine ⟨fuel, Nat.le_of_succ_le_succ hf, ?_⟩
    rw [lineTail, tokenLoop, if_neg (by decide)]
    rfl

/-- One token of the line. -/
private theorem tokenLoop_token (t : Written) (ts : List Written) (fuel : Nat) (s : Run) :
    ∃ x src, t.read.token 1 = some x ∧ (x = t.token ↔ t.Fits) ∧ (t.Fits → src = lineTail ts) ∧
      tokenLoop 1 (fuel+1) (printLine (t :: ts)) s =
        (emitLexeme 1 t.read >>= fun _ => tokenLoop 1 fuel src) s := by
  obtain ⟨c, cs, hprint, hp, hread, hrest⟩ := lexeme_print t (ends_lineTail ts)
  obtain ⟨x, hx, hiff⟩ := read_token t
  refine ⟨x, _, hx, hiff, hrest, ?_⟩
  rw [printLine_cons, hprint, List.cons_append, tokenLoop, if_neg (plain_spec hp).2.2, hread]

/-- If every token fits and there is room, the line is read as it was meant. -/
private theorem tokenLoop_fits (ts : List Written) (hfit : ∀ t ∈ ts, t.Fits) {fuel : Nat}
    (hf : (printLine ts).length ≤ fuel) (hroom : s.tokens.length + ts.length ≤ maxTokens) :
    tokenLoop 1 fuel (printLine ts) s = .ok [] { s with tokens := s.tokens ++ ts.map Written.token } := by
  induction ts generalizing fuel s with
  | nil =>
    rw [List.map_nil, List.append_nil]
    cases fuel <;> rfl
  | cons t ts ih =>
    obtain ⟨hft, hrest⟩ := List.forall_mem_cons.mp hfit
    rw [List.length_cons] at hroom
    have hlen : 0 < t.print.length := by
      obtain ⟨c, cs, hprint, -⟩ := lexeme_print t (ends_lineTail ts)
      rw [hprint]
      exact Nat.succ_pos _
    rw [printLine_cons, List.length_append] at hf
    obtain ⟨fuel, rfl⟩ : ∃ m, fuel = m + 1 := ⟨fuel - 1, by omega⟩
    obtain ⟨x, src, hx, hiff, hsrc, he⟩ := tokenLoop_token t ts fuel s
    obtain ⟨fuel', hf', htail⟩ := tokenLoop_tail ts (by omega : (lineTail ts).length ≤ fuel)
    rw [he, bind_ok (emitLexeme_room hx (by omega)), hsrc hft, htail, hiff.mpr hft,
      ih hrest hf' (by simp; omega)]
    simp

/-- A line that is read without an error, with room to spare, is read as it was
meant exactly if every token fits. -/
private theorem tokenLoop_reads (ts : List Written) {fuel : Nat} {src : List UInt8}
    (hf : (printLine ts).length ≤ fuel) (h : tokenLoop 1 fuel (printLine ts) s = .ok src s')
    (hroom : s'.tokens.length < maxTokens) :
    s'.tokens = s.tokens ++ ts.map Written.token ↔ ∀ t ∈ ts, t.Fits := by
  induction ts generalizing fuel s with
  | nil =>
    have hs : s' = s := by
      cases fuel <;> exact (EStateM.Result.ok.inj h).2.symm
    rw [hs, List.map_nil, List.append_nil]
    simp
  | cons t ts ih =>
    obtain ⟨fuel, rfl⟩ : ∃ m, fuel = m + 1 := by
      cases fuel with
      | zero =>
        obtain ⟨c, cs, hprint, -⟩ := lexeme_print t (ends_lineTail ts)
        rw [printLine_cons, hprint, List.cons_append] at hf
        exact absurd hf (Nat.not_succ_le_zero _)
      | succ m => exact ⟨m, rfl⟩
    obtain ⟨x, src', hx, hiff, hsrc, he⟩ := tokenLoop_token t ts fuel s
    rw [he] at h
    obtain ⟨_, s₁, h₁, h₂⟩ := bind_eq_ok h
    have hpre : s₁.tokens <+: s'.tokens := by
      have := (emits_tokenLoop 1 fuel src' s₁).1
      rwa [h₂] at this
    have hpre' : s.tokens <+: s₁.tokens := by
      have := (emits_emitLexeme 1 t.read s).1
      rwa [h₁] at this
    have hle := hpre.length_le
    have hle' := hpre'.length_le
    rw [emitLexeme_room hx (by omega)] at h₁
    obtain rfl := (EStateM.Result.ok.inj h₁).2
    rw [List.map_cons, List.forall_mem_cons]
    by_cases hft : t.Fits
    · rw [hsrc hft] at h₂
      have hlen : (lineTail ts).length ≤ fuel := by
        have hpos : 0 < t.print.length := by
          obtain ⟨c, cs, hprint, -⟩ := lexeme_print t (ends_lineTail ts)
          rw [hprint]
          exact Nat.succ_pos _
        rw [printLine_cons, List.length_append] at hf
        omega
      obtain ⟨fuel', hf', htail⟩ := tokenLoop_tail ts hlen
      rw [htail] at h₂
      rw [← ih hf' h₂, hiff.mpr hft]
      simp [hft]
    · refine iff_of_false (fun heq => hft (hiff.mp ?_)) fun hall => hft hall.1
      rw [heq] at hpre
      have := List.prefix_append_right_inj _ |>.mp hpre
      exact (List.cons_prefix_cons.mp this).1

private theorem newline_not_mem_print (t : Written) : '\n'.toUInt8 ∉ t.print := by
  have hclass : ∀ p : UInt8 → Bool, p '\n'.toUInt8 = false → ∀ l : List UInt8, (∀ c ∈ l, p c = true) →
      '\n'.toUInt8 ∉ l := by
    intro p hp l hl hmem
    exact absurd (hl _ hmem) (by simp [hp])
  cases t with
  | word first rest hfirst hrest =>
    exact hclass isAlnum (by decide) _ (List.forall_mem_cons.mpr ⟨by simp [isAlnum, hfirst], hrest⟩)
  | int digits hne hdigits => exact hclass isDigit (by decide) _ hdigits
  | str quote content hquote hcontent =>
    have hq : '\n'.toUInt8 ≠ quote := by
      rintro rfl
      exact absurd hquote (by decide)
    have hesc : ∀ b ∈ content, '\n'.toUInt8 ∉ escape quote b := by
      intro b _
      unfold escape
      split
      · decide
      split
      · decide
      split
      · next hn _ _ =>
        rw [List.mem_cons, List.mem_singleton, not_or]
        exact ⟨by decide, fun h => hn h.symm⟩
      · next hn _ _ =>
        rw [List.mem_singleton]
        exact fun h => hn h.symm
    simp only [Written.print, List.mem_append, List.mem_cons, List.mem_flatMap, List.not_mem_nil,
      or_false, not_or, not_exists, not_and]
    exact ⟨⟨hq, hesc⟩, hq⟩
  | double c t h =>
    have hc := (plain_spec (operator_route _ (List.mem_append_left _ h)).1).2.2
    rw [Written.print, List.mem_cons, List.mem_singleton, not_or]
    exact ⟨fun h => hc h.symm, by decide⟩
  | single c t h =>
    have hc := (plain_spec (operator_route _ (List.mem_append_right _ h)).1).2.2
    rw [Written.print, List.mem_singleton]
    exact fun h => hc h.symm

private theorem newline_not_mem_printLine (ts : List Written) : '\n'.toUInt8 ∉ printLine ts := by
  induction ts with
  | nil => exact List.not_mem_nil
  | cons t ts ih =>
    rw [printLine_cons, List.mem_append, not_or]
    refine ⟨newline_not_mem_print t, ?_⟩
    cases ts with
    | nil => exact List.not_mem_nil
    | cons t' ts =>
      rw [lineTail, List.mem_cons, not_or]
      exact ⟨by decide, ih⟩

private theorem lineLoop_end (fuel : Nat) : lineLoop fuel 1 [0] [] = orFail (emit .eof 1) := by
  cases fuel <;> rfl

/-- The lexer on a line that has tokens. -/
private theorem gkLex_line (t : Written) (ts : List Written) (s : Run) :
    gkLex (printLine (t :: ts)) s =
      (tokenLoop 1 ((printLine (t :: ts)).length + 1) (printLine (t :: ts)) >>= fun _ =>
        orFail (emit .newline 1) >>= fun _ => orFail (emit .eof 1)) { s with tokens := [], tokPos := 0 } := by
  obtain ⟨c, cs, hprint, hp, -⟩ := lexeme_print t (ends_lineTail ts)
  obtain ⟨hsp, hhash, hnl⟩ := plain_spec hp
  have hnot := newline_not_mem_printLine (t :: ts)
  have hline : printLine (t :: ts) = c :: (cs ++ lineTail ts) := by
    rw [printLine_cons, hprint, List.cons_append]
  rw [hline] at hnot ⊢
  generalize cs ++ lineTail ts = src at hnot ⊢
  have hspace : (c == ' '.toUInt8) = false ∧ (c == '\t'.toUInt8) = false := by simpa [isSpace] using hsp
  change lineLoop _ 1 [0] (c :: src) _ = _
  rw [lineLoop]
  simp only [List.takeWhile_cons, hspace.1, hspace.2, List.length_nil, List.drop_zero,
    List.headD_cons, hnl, hhash, Bool.false_eq_true, if_false, reduceCtorEq, or_self]
  change (tokenLoop 1 _ (c :: src) >>= _) _ = _
  obtain ⟨s₁, ⟨src', h, hsuf, hend⟩ | h⟩ := tokenLoop_returns 1 (Nat.le_succ (c :: src).length)
    { s with tokens := [], tokPos := 0 }
  · rw [bind_ok h, bind_ok h]
    obtain rfl : src' = [] := by
      refine hend.resolve_right fun hhead => hnot (hsuf.subset ?_)
      exact List.mem_of_mem_head? hhead
    rw [if_pos rfl, List.tail_nil, lineLoop_end]
  · rw [bind_error h, bind_error h]

/-- What was written on one line is read or the lexer fails. If it does not fail,
it reads the tokens that were meant exactly if there is at least one and each
fits; and such a line fails only for want of room. -/
theorem lex_round_trip (ts : List Written) (s : Run) :
    (∃ s', gkLex (printLine ts) s = .ok () s' ∨ gkLex (printLine ts) s = .error .failed s') ∧
      (∀ s', gkLex (printLine ts) s = .ok () s' →
        (s'.tokens = ts.map Written.token ++ [⟨.newline, 0, [], 1⟩, ⟨.eof, 0, [], 1⟩] ↔
          ts ≠ [] ∧ ∀ t ∈ ts, t.Fits)) ∧
      (ts ≠ [] → (∀ t ∈ ts, t.Fits) →
        ((∃ s', gkLex (printLine ts) s = .ok () s') ↔ ts.length + 2 ≤ maxTokens)) := by
  cases ts with
  | nil =>
    have he : gkLex (printLine []) s =
        .ok () { s with tokens := [⟨.eof, 0, [], 1⟩], tokPos := 0 } := rfl
    refine ⟨⟨_, .inl he⟩, fun s' h => ?_, fun h => absurd rfl h⟩
    rw [he] at h
    obtain rfl := (EStateM.Result.ok.inj h).2
    simp
  | cons t ts =>
    rw [gkLex_line]
    generalize hs₀ : ({ s with tokens := [], tokPos := 0 } : Run) = s₀
    have htok : s₀.tokens = [] := by rw [← hs₀]
    have hreads : ∀ s', (tokenLoop 1 ((printLine (t :: ts)).length + 1) (printLine (t :: ts)) >>= fun _ =>
        orFail (emit .newline 1) >>= fun _ => orFail (emit .eof 1)) s₀ = .ok () s' →
        s'.tokens.length ≤ maxTokens ∧
        (s'.tokens = (t :: ts).map Written.token ++ [⟨.newline, 0, [], 1⟩, ⟨.eof, 0, [], 1⟩] ↔
          ∀ t' ∈ t :: ts, t'.Fits) := by
      intro s' h
      obtain ⟨src, s₁, h₁, h⟩ := bind_eq_ok h
      obtain ⟨_, s₂, h₂, h₃⟩ := bind_eq_ok h
      obtain ⟨hroom, rfl⟩ := orFail_emit_eq_ok h₂
      obtain ⟨hroom', rfl⟩ := orFail_emit_eq_ok h₃
      have hiff := tokenLoop_reads (t :: ts) (Nat.le_succ _) h₁ hroom
      rw [htok, List.nil_append] at hiff
      refine ⟨by simpa [Nat.succ_le_iff] using hroom', ?_⟩
      rw [← hiff, List.append_assoc]
      exact List.append_left_inj _
    refine ⟨?_, fun s' h => ?_, fun _ hfit => ⟨fun ⟨s', h⟩ => ?_, fun hlen => ?_⟩⟩
    · obtain ⟨s₁, ⟨src, h, -⟩ | h⟩ := tokenLoop_returns 1 (Nat.le_succ (printLine (t :: ts)).length) s₀
      · rw [bind_ok h]
        by_cases hn : maxTokens ≤ s₁.tokens.length
        · exact ⟨_, .inr (bind_error (by rw [emit, orFail_emit, if_pos hn]))⟩
        · rw [bind_ok (by rw [emit, orFail_emit, if_neg hn]), emit, orFail_emit]
          split
          · exact ⟨_, .inr rfl⟩
          · exact ⟨_, .inl rfl⟩
      · exact ⟨_, .inr (bind_error h)⟩
    · rw [(hreads s' h).2]
      simp
    · obtain ⟨hle, hiff⟩ := hreads s' h
      rw [hiff.mpr hfit] at hle
      simp only [List.length_append, List.length_map, List.length_cons, List.length_nil] at hle ⊢
      omega
    · have hread := tokenLoop_fits (t :: ts) hfit (Nat.le_succ _) (s := s₀)
        (by rw [htok, List.length_nil]; omega)
      rw [htok, List.nil_append] at hread
      rw [bind_ok hread, bind_ok (by rw [emit, orFail_emit, if_neg (by simp at hlen ⊢; omega)]), emit,
        orFail_emit, if_neg (by simp at hlen ⊢; omega)]
      exact ⟨_, rfl⟩

/-- A name of 64 letters is read as two names. -/
theorem long_word_splits :
    ∃ s', gkLex (printLine [.word 97 (List.replicate 63 97) (by decide) (by decide +kernel)])
      (freshState []).start = .ok () s' ∧
      s'.tokens.map Token.strVal = [List.replicate 63 97, [97], [], []] ∧
      s'.tokens ≠ [Written.word 97 (List.replicate 63 97) (by decide) (by decide +kernel)].map Written.token ++
        [⟨.newline, 0, [], 1⟩, ⟨.eof, 0, [], 1⟩] := by
  refine ⟨final (gkLex (List.replicate 64 97)
    (freshState []).start), by decide +kernel, by decide +kernel, by decide +kernel⟩

end GeckoOS.Gk
