import GeckoOS.Gk.Errors

/-! The tokens of a source that is lexed: they are those of a lexer with room
for any number of tokens, INDENT and DEDENT are brackets, and EOF is the last. -/
namespace GeckoOS.Gk
open Lib

/-! The lexer without a limit: the same loops, where each emit is a success and
the indentation stack takes any push. -/
namespace Unlimited

def tokenLoop (line : Nat) : Nat → List UInt8 → Option (List Token × List UInt8)
  | _, [] => some ([], [])
  | 0, _ :: _ => none
  | fuel+1, c :: src =>
    if c = '\n'.toUInt8 then some ([], c :: src)
    else
      match (lexeme c src).1 with
      | .unknown => none
      | l => do
        let (ts, rest) ← tokenLoop line fuel (lexeme c src).2
        return ((l.token line).toList ++ ts, rest)

def popIndents (indent line : Nat) : List Nat → List Token × List Nat
  | [] => ([], [])
  | top :: stack =>
    if indent < top then
      let (ts, stack) := popIndents indent line stack
      (⟨.dedent, 0, [], line⟩ :: ts, stack)
    else ([], top :: stack)

def setIndent (indent line : Nat) (stack : List Nat) : List Token × List Nat :=
  if stack.headD 0 < indent then ([⟨.indent, 0, [], line⟩], indent :: stack) else popIndents indent line stack

def closeIndents (line : Nat) : List Nat → List Token
  | [] => []
  | [_] => []
  | _ :: stack => ⟨.dedent, 0, [], line⟩ :: closeIndents line stack

def lineLoop : Nat → Nat → List Nat → List UInt8 → Option (List Token)
  | _, line, stack, [] => some (closeIndents line stack ++ [⟨.eof, 0, [], line⟩])
  | 0, _, _, _ :: _ => none
  | fuel+1, line, stack, c :: src => do
    let spaces := ((c :: src).takeWhile (· == ' '.toUInt8)).length
    let src := (c :: src).drop spaces
    let tabs := (src.takeWhile (· == '\t'.toUInt8)).length
    let src := src.drop tabs
    if src = [] ∨ src.headD 0 = '\n'.toUInt8 ∨ src.headD 0 = '#'.toUInt8 then
      let src := src.dropWhile (· != '\n'.toUInt8)
      lineLoop fuel (if src = [] then line else line + 1) stack src.tail
    else
      let (indents, stack) := setIndent (spaces + 4 * tabs) line stack
      let (ts, src) ← tokenLoop line (src.length + 1) src
      let rest ← lineLoop fuel (if src = [] then line else line + 1) stack src.tail
      return indents ++ ts ++ ⟨.newline, 0, [], line⟩ :: rest

/-- The tokens of a source, or none if it has an unknown character. -/
def gkLex (src : List UInt8) : Option (List Token) := lineLoop (src.length + 1) 1 [0] src

end Unlimited

variable {s s' : Run}

/-! What is emitted as long as there is room at the end. -/

private theorem emitLexeme_emitted {line : Nat} {l : Lexeme} (h : emitLexeme line l s = .ok () s')
    (hroom : s'.tokens.length < maxTokens) : l ≠ .unknown ∧ s'.tokens = s.tokens ++ (l.token line).toList := by
  have hbefore := ((lexed_emitLexeme line l s).room h hroom).2
  refine ⟨?_, ?_⟩
  · rintro rfl
    cases h
  · cases ht : l.token line with
    | some t =>
      rw [emitLexeme_room ht hbefore] at h
      cases h
      rfl
    | none =>
      cases l with
      | nothing =>
        cases h
        simp
      | unknown => cases h
      | int v => cases ht
      | text t str => cases ht
      | operator t => cases ht

private theorem tokenLoop_emitted {line fuel : Nat} {src src' : List UInt8}
    (h : tokenLoop line fuel src s = .ok src' s')
    (hroom : s'.tokens.length < maxTokens) :
    ∃ ts, Unlimited.tokenLoop line fuel src = some (ts, src') ∧ s'.tokens = s.tokens ++ ts := by
  fun_induction tokenLoop line fuel src generalizing s with
  | case1 =>
    cases h
    exact ⟨[], by rw [Unlimited.tokenLoop], by simp⟩
  | case2 => cases h
  | case3 fuel src =>
    cases h
    exact ⟨[], by rw [Unlimited.tokenLoop, if_pos rfl], by simp⟩
  | case4 fuel c src hc ih =>
    obtain ⟨u, s₁, h₁, h⟩ := bind_eq_ok h
    obtain ⟨ts, hts, heq⟩ := ih h
    obtain ⟨hl, hemit⟩ := emitLexeme_emitted h₁ ((lexed_tokenLoop line fuel _ s₁).room h hroom).2
    refine ⟨((lexeme c src).1.token line).toList ++ ts, ?_, by rw [heq, hemit, List.append_assoc]⟩
    rw [Unlimited.tokenLoop, if_neg hc]
    split
    · next hu => exact absurd hu hl
    · rw [hts]
      rfl

private theorem popIndents_emitted {indent line : Nat} {stack stack' : List Nat}
    (h : popIndents indent line stack s = .ok stack' s') :
    Unlimited.popIndents indent line stack = ((Unlimited.popIndents indent line stack).1, stack') ∧
      s'.tokens = s.tokens ++ (Unlimited.popIndents indent line stack).1 := by
  induction stack generalizing s with
  | nil =>
    cases h
    exact ⟨rfl, by simp [Unlimited.popIndents]⟩
  | cons top stack ih =>
    rw [popIndents] at h
    rw [Unlimited.popIndents]
    split at h
    · next hlt =>
      obtain ⟨u, s₁, h₁, h⟩ := bind_eq_ok h
      obtain ⟨-, rfl⟩ := orFail_emit_eq_ok h₁
      obtain ⟨hstack, htokens⟩ := ih h
      rw [if_pos hlt]
      refine ⟨Prod.ext rfl (Prod.ext_iff.mp hstack).2, ?_⟩
      rw [htokens, List.append_assoc]
      rfl
    · next hlt =>
      cases h
      rw [if_neg hlt]
      exact ⟨rfl, by simp⟩

private theorem setIndent_emitted {indent line : Nat} {stack stack' : List Nat}
    (h : setIndent indent line stack s = .ok stack' s') :
    ∃ ts, Unlimited.setIndent indent line stack = (ts, stack') ∧ s'.tokens = s.tokens ++ ts := by
  rw [setIndent] at h
  rw [Unlimited.setIndent]
  split at h
  · next hlt =>
    rw [if_pos hlt]
    split at h
    · rw [bind_error (throw_apply _ _)] at h
      cases h
    · obtain ⟨u, s₁, h₁, h⟩ := bind_eq_ok h
      obtain ⟨-, rfl⟩ := orFail_emit_eq_ok h₁
      cases h
      exact ⟨_, rfl, rfl⟩
  · next hlt =>
    rw [if_neg hlt]
    exact ⟨_, popIndents_emitted h⟩

private theorem closeIndents_emitted {line : Nat} {stack : List Nat}
    (h : closeIndents line stack s = .ok () s') :
    s'.tokens = s.tokens ++ Unlimited.closeIndents line stack := by
  fun_induction closeIndents line stack generalizing s with
  | case1 | case2 =>
    cases h
    simp [Unlimited.closeIndents]
  | case3 top stack hne ih =>
    obtain ⟨u, s₁, h₁, h⟩ := bind_eq_ok h
    obtain ⟨-, rfl⟩ := orFail_emit_eq_ok h₁
    rw [ih h, Unlimited.closeIndents]
    · rw [List.append_assoc]
      rfl
    · exact hne

private theorem lineLoop_emitted {fuel line : Nat} {stack : List Nat} {src : List UInt8}
    (h : lineLoop fuel line stack src s = .ok () s') :
    s'.tokens.length ≤ maxTokens ∧
      ∃ ts, Unlimited.lineLoop fuel line stack src = some ts ∧ s'.tokens = s.tokens ++ ts := by
  fun_induction lineLoop fuel line stack src generalizing s with
  | case1 fuel line stack =>
    obtain ⟨u, s₁, h₁, h⟩ := bind_eq_ok h
    obtain ⟨hroom, rfl⟩ := orFail_emit_eq_ok h
    refine ⟨by simpa using Nat.succ_le_of_lt hroom, _, by rw [Unlimited.lineLoop], ?_⟩
    show s₁.tokens ++ _ = _
    rw [closeIndents_emitted h₁, List.append_assoc]
  | case2 => cases h
  | case3 =>
    rename_i hblank _ ih
    obtain ⟨hle, ts, hts, heq⟩ := ih h
    refine ⟨hle, ts, ?_, heq⟩
    rw [Unlimited.lineLoop, if_pos hblank]
    exact hts
  | case4 =>
    rename_i line _ _ _ _ _ _ _ hblank ih
    obtain ⟨stack', s₁, h₁, h⟩ := bind_eq_ok h
    obtain ⟨src', s₂, h₂, h⟩ := bind_eq_ok h
    obtain ⟨u, s₃, h₃, h⟩ := bind_eq_ok h
    obtain ⟨indents, hindents, heq₁⟩ := setIndent_emitted h₁
    have hroom := ((lexed_orFail _ s₂).room h₃ (lineLoop_ok h).2).2
    obtain ⟨ts, hts, heq₂⟩ := tokenLoop_emitted h₂ hroom
    obtain ⟨-, rfl⟩ := orFail_emit_eq_ok h₃
    obtain ⟨hle, rest, hrest, heq⟩ := ih _ _ h
    refine ⟨hle, indents ++ ts ++ ⟨.newline, 0, [], line⟩ :: rest, ?_, ?_⟩
    · rw [Unlimited.lineLoop, if_neg hblank, hindents]
      dsimp only
      rw [hts, Option.bind_eq_bind, Option.bind_some]
      dsimp only
      rw [hrest]
      rfl
    · rw [heq]
      show s₂.tokens ++ _ ++ rest = _
      rw [heq₂, heq₁]
      simp

/-! Brackets. -/

def opens (ts : List Token) : Nat := ts.countP fun t => t.type = .indent
def closes (ts : List Token) : Nat := ts.countP fun t => t.type = .dedent

/-- Inside `d` open blocks, the tokens close no others than these and their own,
and leave `d'` blocks open. -/
structure Brackets (d : Nat) (ts : List Token) (d' : Nat) : Prop where
  total : d + opens ts = d' + closes ts
  within : ∀ p, p <+: ts → closes p ≤ d + opens p

namespace Brackets
variable {d d' d'' : Nat} {ts us : List Token}

protected theorem append (h : Brackets d ts d') (h' : Brackets d' us d'') : Brackets d (ts ++ us) d'' := by
  have ho : ∀ us, opens (ts ++ us) = opens ts + opens us := fun _ => List.countP_append
  have hc : ∀ us, closes (ts ++ us) = closes ts + closes us := fun _ => List.countP_append
  have htotal := h.total
  have htotal' := h'.total
  refine ⟨by rw [ho, hc]; omega, fun p hp => ?_⟩
  rw [List.prefix_iff_eq_take.mp hp]
  by_cases hlen : p.length ≤ ts.length
  · rw [List.take_append_of_le_length hlen]
    exact h.within _ (List.take_prefix _ _)
  · have hin := h'.within _ (List.take_prefix (p.length - ts.length) us)
    rw [List.take_append, List.take_of_length_le (by omega), ho, hc]
    omega

/-- Tokens that are no brackets. -/
theorem plain (d : Nat) (h : ∀ t ∈ ts, t.type ≠ .indent ∧ t.type ≠ .dedent) : Brackets d ts d := by
  have ho : opens ts = 0 := List.countP_eq_zero.mpr fun t ht => by simp [(h t ht).1]
  have hc : closes ts = 0 := List.countP_eq_zero.mpr fun t ht => by simp [(h t ht).2]
  refine ⟨by rw [ho, hc], fun p hp => ?_⟩
  have : closes p ≤ closes ts := List.Sublist.countP_le hp.sublist
  omega

private theorem within_singleton {t : Token} (h : closes [t] ≤ d + opens [t]) :
    ∀ p, p <+: [t] → closes p ≤ d + opens p := by
  intro p hp
  obtain rfl | rfl : p = [] ∨ p = [t] := by simpa using (List.prefix_cons_iff.mp hp)
  · exact Nat.zero_le _
  · exact h

theorem indent (d line : Nat) : Brackets d [⟨.indent, 0, [], line⟩] (d + 1) :=
  ⟨rfl, within_singleton (Nat.zero_le _)⟩

theorem dedent (d line : Nat) : Brackets (d + 1) [⟨.dedent, 0, [], line⟩] d :=
  ⟨rfl, within_singleton (Nat.le_add_left 1 d)⟩

end Brackets

/-- The types of the tokens inside a line. -/
def TokenType.inline : TokenType → Bool
  | .newline | .indent | .dedent | .eof => false
  | _ => true

private theorem inline_of_lookup {κ : Type} [BEq κ] [LawfulBEq κ] {l : List (κ × TokenType)}
    (hl : ∀ x ∈ l, x.2.inline = true) {a : κ} {t : TokenType} (h : l.lookup a = some t) : t.inline = true := by
  obtain ⟨l₁, l₂, rfl, -⟩ := List.lookup_eq_some_iff.mp h
  exact hl (a, t) (by simp)

theorem wordType_inline (buf : List UInt8) : (wordType buf).inline = true := by
  unfold wordType
  cases h : keywords.lookup buf with
  | none => rfl
  | some t => exact inline_of_lookup (by decide) h

theorem operatorLexeme_inline {c : UInt8} {src : List UInt8} {line : Nat} {t : Token}
    (h : (operatorLexeme c src).1.token line = some t) : t.type.inline = true := by
  unfold operatorLexeme at h
  split at h
  · next hdouble =>
    obtain rfl := Option.some.inj h
    split at hdouble
    · exact inline_of_lookup (by decide) hdouble
    · cases hdouble
  · split at h
    · next hsingle =>
      obtain rfl := Option.some.inj h
      exact inline_of_lookup (by decide) hsingle
    · cases h

theorem lexeme_inline {c : UInt8} {src : List UInt8} {line : Nat} {t : Token}
    (h : (lexeme c src).1.token line = some t) : t.type.inline = true := by
  unfold lexeme at h
  split at h
  · cases h
  split at h
  · cases h
  split at h
  · obtain rfl := Option.some.inj h
    rfl
  split at h
  · obtain rfl := Option.some.inj h
    rfl
  split at h
  · obtain rfl := Option.some.inj h
    exact wordType_inline _
  · exact operatorLexeme_inline h

namespace Unlimited
variable {line fuel indent : Nat} {src rest : List UInt8} {ts : List Token}

theorem tokenLoop_inline (h : tokenLoop line fuel src = some (ts, rest)) : ∀ t ∈ ts, t.type.inline = true := by
  fun_induction tokenLoop line fuel src generalizing ts with
  | case1 =>
    cases h
    simp
  | case2 => cases h
  | case3 =>
    cases h
    simp
  | case4 => cases h
  | case5 fuel c src hc hl ih =>
    obtain ⟨⟨us, rest'⟩, hus, h⟩ := Option.bind_eq_some_iff.mp h
    cases h
    intro t ht
    obtain ht | ht := List.mem_append.mp ht
    · exact lexeme_inline (Option.mem_toList.mp ht)
    · exact ih hus t ht

theorem brackets_popIndents (indent line : Nat) (l : List Nat) :
    ∃ l' : List Nat, (popIndents indent line (l ++ [0])).2 = l' ++ [0] ∧
      Brackets l.length (popIndents indent line (l ++ [0])).1 l'.length := by
  induction l with
  | nil => exact ⟨[], by simp [popIndents], by simpa [popIndents] using Brackets.plain 0 (by simp)⟩
  | cons top l ih =>
    obtain ⟨l', hstack, hb⟩ := ih
    rw [List.cons_append, popIndents]
    split
    · exact ⟨l', hstack, (Brackets.dedent l.length line).append hb⟩
    · exact ⟨top :: l, rfl, .plain _ (by simp)⟩

theorem brackets_setIndent (indent line : Nat) (l : List Nat) :
    ∃ l' : List Nat, (setIndent indent line (l ++ [0])).2 = l' ++ [0] ∧
      Brackets l.length (setIndent indent line (l ++ [0])).1 l'.length := by
  unfold setIndent
  split
  · exact ⟨indent :: l, rfl, .indent l.length line⟩
  · exact brackets_popIndents indent line l

theorem brackets_closeIndents (line : Nat) (l : List Nat) :
    Brackets l.length (closeIndents line (l ++ [0])) 0 := by
  induction l with
  | nil => exact .plain 0 (by simp [closeIndents])
  | cons top l ih =>
    rw [List.cons_append, closeIndents]
    · exact (Brackets.dedent l.length line).append ih
    · simp

theorem popIndents_type {stack : List Nat} : ∀ t ∈ (popIndents indent line stack).1, t.type = .dedent := by
  induction stack with
  | nil => simp [popIndents]
  | cons top stack ih =>
    rw [popIndents]
    split
    · simpa using ih
    · simp

theorem setIndent_type {stack : List Nat} :
    ∀ t ∈ (setIndent indent line stack).1, t.type = .indent ∨ t.type = .dedent := by
  unfold setIndent
  split
  · simp
  · exact fun t ht => .inr (popIndents_type t ht)

theorem closeIndents_type {stack : List Nat} : ∀ t ∈ closeIndents line stack, t.type = .dedent := by
  fun_induction closeIndents line stack with
  | case1 => simp
  | case2 => simp
  | case3 _ _ _ ih => simpa using ih

/-- The end of the source, a blank line, or a line with its indentation and its tokens. -/
theorem lineLoop_cases {stack : List Nat} (h : lineLoop fuel line stack src = some ts) :
    ts = closeIndents line stack ++ [⟨.eof, 0, [], line⟩] ∨
    ∃ fuel' line' rest, fuel = fuel' + 1 ∧
      (lineLoop fuel' line' stack rest = some ts ∨
      ∃ indent us vs, (∀ t ∈ us, t.type.inline = true) ∧
        lineLoop fuel' line' (setIndent indent line stack).2 rest = some vs ∧
        ts = (setIndent indent line stack).1 ++ us ++ ⟨.newline, 0, [], line⟩ :: vs) := by
  cases src with
  | nil =>
    rw [lineLoop] at h
    exact .inl (Option.some.inj h).symm
  | cons c src =>
    cases fuel with
    | zero => cases h
    | succ fuel =>
      right
      rw [lineLoop] at h
      split at h
      · exact ⟨fuel, _, _, rfl, .inl h⟩
      · obtain ⟨⟨us, rest⟩, hus, h⟩ := Option.bind_eq_some_iff.mp h
        obtain ⟨vs, hvs, h⟩ := Option.bind_eq_some_iff.mp h
        exact ⟨fuel, _, _, rfl, .inr ⟨_, us, vs, tokenLoop_inline hus, hvs, (Option.some.inj h).symm⟩⟩

/-- From `l.length` open blocks to the end of the source. -/
theorem lineLoop_brackets {l : List Nat} (h : lineLoop fuel line (l ++ [0]) src = some ts) :
    ∃ (us : List Token) (line' : Nat), ts = us ++ [⟨.eof, 0, [], line'⟩] ∧ (∀ t ∈ us, t.type ≠ .eof) ∧
      Brackets l.length us 0 := by
  induction fuel generalizing line l src ts with
  | zero =>
    obtain rfl | ⟨_, _, _, h, _⟩ := lineLoop_cases h
    · exact ⟨_, _, rfl, fun t ht => by simp [closeIndents_type t ht], brackets_closeIndents line l⟩
    · cases h
  | succ fuel ih =>
    obtain rfl | ⟨_, line', rest, hfuel, h | ⟨indent, us, vs, hus, hvs, rfl⟩⟩ := lineLoop_cases h
    · exact ⟨_, _, rfl, fun t ht => by simp [closeIndents_type t ht], brackets_closeIndents line l⟩
    · cases hfuel
      exact ih h
    · cases hfuel
      obtain ⟨l', hstack, hopen⟩ := brackets_setIndent indent line l
      rw [hstack] at hvs
      obtain ⟨ws, last, rfl, heof, hrest⟩ := ih hvs
      have hline : ∀ t ∈ us ++ [(⟨.newline, 0, [], line⟩ : Token)], t.type ≠ .indent ∧
        t.type ≠ .dedent ∧ t.type ≠ .eof := by
        intro t ht
        obtain ht | ht := List.mem_append.mp ht
        · have := hus t ht
          refine ⟨?_, ?_, ?_⟩ <;> (intro h; rw [h] at this; cases this)
        · obtain rfl := List.mem_singleton.mp ht
          simp
      refine ⟨(setIndent indent line (l ++ [0])).1 ++ (us ++ [⟨.newline, 0, [], line⟩]) ++ ws,
        last, by simp, ?_, ?_⟩
      · intro t ht
        obtain ht | ht := List.mem_append.mp ht
        · obtain ht | ht := List.mem_append.mp ht
          · obtain h | h := setIndent_type t ht <;> simp [h]
          · exact (hline t ht).2.2
        · exact heof t ht
      · exact (hopen.append (.plain _ fun t ht => ⟨(hline t ht).1, (hline t ht).2.1⟩)).append hrest

end Unlimited

/-- A source that is lexed has at most 2048 tokens, the last of which is the only
EOF; INDENT and DEDENT are well bracketed; and the tokens are those of the lexer
without a limit. -/
theorem gkLex_complete {src : List UInt8} (h : gkLex src s = .ok () s') :
    s'.tokens.length ≤ maxTokens ∧
    (∃ ts line, s'.tokens = ts ++ [⟨.eof, 0, [], line⟩] ∧ ∀ t ∈ ts, t.type ≠ .eof) ∧
    ((∀ p, p <+: s'.tokens → closes p ≤ opens p) ∧ opens s'.tokens = closes s'.tokens) ∧
    Unlimited.gkLex src = some s'.tokens := by
  have hrun : lineLoop (src.length + 1) 1 [0] src { s with tokens := [], tokPos := 0 } = .ok () s' := h
  obtain ⟨hle, ts, hts, heq⟩ := lineLoop_emitted hrun
  obtain rfl : s'.tokens = ts := heq
  obtain ⟨us, line, htokens, heof, hb⟩ := Unlimited.lineLoop_brackets (l := []) hts
  have hend : Brackets 0 s'.tokens 0 := by
    rw [htokens]
    exact hb.append (.plain 0 (by simp))
  refine ⟨hle, ⟨us, line, htokens, heof⟩, ⟨fun p hp => ?_, ?_⟩, hts⟩
  · simpa using hend.within p hp
  · simpa using hend.total

/-- A block with an assignment. -/
theorem gkLex_complete_block :
    opens (final (gkLex (ascii "if x:\n  y=1\n") (freshState []).start)).tokens = 1 ∧
      Unlimited.gkLex (ascii "if x:\n  y=1\n") =
        some (final (gkLex (ascii "if x:\n  y=1\n") (freshState []).start)).tokens :=
  have h : gkLex (ascii "if x:\n  y=1\n") (freshState []).start =
      .ok () (final (gkLex (ascii "if x:\n  y=1\n") (freshState []).start)) := by decide +kernel
  ⟨by decide +kernel, (gkLex_complete h).2.2.2⟩

end GeckoOS.Gk
