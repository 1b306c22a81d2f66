import GeckoOS.Gk.Lines
import GeckoOS.Lib.Levels
import GeckoOS.Lib.Lockstep
import GeckoOS.Lib.Runs

/-! The indentation stack along the lines of a source. Behind every line it holds the
levels of the lines so far; nothing checks that a line has one of them, or that they are
fewer than MAX_INDENT. -/
namespace GeckoOS.Gk
open Lib

/-- The indentations of the lines that are not blank. -/
def widths (src : List UInt8) : List Nat := (lines src).map Line.width

/-- The loop over the lines at the start of one. -/
structure LexState where
  line : Nat
  stack : List Nat
  src : List UInt8
  run : Run

def lexStart (src : List UInt8) (s : Run) : LexState := ⟨1, [0], src, { s with tokens := [], tokPos := 0 }⟩

/-- What a line shows: nothing if it is blank, and else its indentation and the stack
behind its INDENT and DEDENT tokens. -/
abbrev LineLabel := Option (Nat × List Nat)

/-- One line of `gk_lex`. -/
inductive LineStep : LexState → LineLabel → LexState → Prop
  | blank {c : UInt8} {src : List UInt8} {line : Nat} {stack : List Nat} {s : Run} (h : Blank (c :: src)) :
      LineStep ⟨line, stack, c :: src, s⟩ none
        ⟨if lineEnd (c :: src) = [] then line else line + 1, stack, (lineEnd (c :: src)).tail, s⟩
  | line {c : UInt8} {src rest : List UInt8} {line : Nat} {stack stack' : List Nat} {s s₁ s₂ s₃ : Run}
      (h : ¬ Blank (c :: src)) (hset : setIndent (width (c :: src)) line stack s = .ok stack' s₁)
      (hloop : tokenLoop line ((body (c :: src)).length + 1) (body (c :: src)) s₁ = .ok rest s₂)
      (hend : orFail (emit .newline line) s₂ = .ok () s₃) :
      LineStep ⟨line, stack, c :: src, s⟩ (some (width (c :: src), stack'))
        ⟨if rest = [] then line else line + 1, stack', rest.tail, s₃⟩

/-- The indentations in the labels of a run. -/
def lineWidths (labels : List LineLabel) : List Nat := labels.filterMap (Option.map Prod.fst)

variable {src rest : List UInt8} {n line : Nat} {stack stack' : List Nat} {s s' : Run}

theorem popIndents_eq_ok {indent : Nat} (h : popIndents indent line stack s = .ok stack' s') :
    stack' = stack.dropWhile (indent < ·) := by
  induction stack generalizing s with
  | nil =>
    cases h
    rfl
  | cons top stack ih =>
    rw [popIndents] at h
    split at h
    · next hlt =>
      obtain ⟨_, _, _, h⟩ := bind_eq_ok h
      rw [List.dropWhile_cons_of_pos (by simpa using hlt)]
      exact ih h
    · next hlt =>
      cases h
      rw [List.dropWhile_cons_of_neg (by simpa using hlt)]

theorem setIndent_eq_ok {indent : Nat} (h : setIndent indent line stack s = .ok stack' s') :
    stack' = reindent 0 indent stack := by
  rw [setIndent] at h
  rw [reindent]
  split at h
  · next hlt =>
    rw [if_pos hlt]
    split at h
    · rw [bind_error (throw_apply _ _)] at h
      cases h
    · obtain ⟨_, _, _, h⟩ := bind_eq_ok h
      cases h
      rfl
  · next hlt =>
    rw [if_neg hlt]
    exact popIndents_eq_ok h

theorem tokenLoop_rest (h : tokenLoop line n src s = .ok rest s') : rest = (lexemes n src).2 := by
  induction n generalizing src s with
  | zero =>
    cases src with
    | nil =>
      cases h
      rfl
    | cons c src => cases h
  | succ n ih =>
    cases src with
    | nil =>
      cases h
      rfl
    | cons c src =>
      rw [tokenLoop] at h
      rw [lexemes]
      split at h
      · next hc =>
        cases h
        rw [if_pos hc]
      · next hc =>
        obtain ⟨_, _, _, h⟩ := bind_eq_ok h
        rw [if_neg hc]
        exact ih h

theorem LineStep.rest_eq (hloop : tokenLoop line ((body src).length + 1) (body src) s = .ok rest s') :
    rest = lineEnd src := by
  rw [tokenLoop_rest hloop, lexemes_eq (Nat.le_succ _) (Nat.le_refl _)]
  exact lineEnd_body src

/-- A step takes the first line off, and has the stack of its level. -/
theorem LineStep.spec {x y : LexState} {label : LineLabel} (h : LineStep x label y) :
    widths x.src = (label.map Prod.fst).toList ++ widths y.src ∧
      y.stack = (label.map Prod.fst).toList.foldl (fun stack w => reindent 0 w stack) x.stack ∧
      ∀ l ∈ label, l.2 = y.stack := by
  cases h with
  | blank hblank =>
    refine ⟨?_, rfl, nofun⟩
    rw [widths, lines_eq, firstLine, if_pos hblank]
    rfl
  | line hblank hset hloop hend =>
    rw [LineStep.rest_eq hloop]
    refine ⟨?_, setIndent_eq_ok hset, fun l hl => ?_⟩
    · rw [widths, lines_eq, firstLine, if_neg hblank]
      rfl
    · cases hl
      rfl

/-- The lines of a run, and the stack behind them. -/
theorem run_spec {x y : LexState} {labels : List LineLabel} (h : Lib.Run LineStep x labels y) :
    widths x.src = lineWidths labels ++ widths y.src ∧
      y.stack = (lineWidths labels).foldl (fun stack w => reindent 0 w stack) x.stack := by
  induction h with
  | nil => exact ⟨rfl, rfl⟩
  | @cons x m y label labels hstep _ ih =>
    obtain ⟨hwidths, hstack, -⟩ := hstep.spec
    have hcons : lineWidths (label :: labels) = (label.map Prod.fst).toList ++ lineWidths labels := by
      cases label <;> rfl
    rw [hcons, hwidths, ih.1, ih.2, hstack, List.append_assoc, List.foldl_append]
    exact ⟨rfl, rfl⟩

theorem levels_of_run {y : LexState} {labels : List LineLabel}
    (h : Lib.Run LineStep (lexStart src s) labels y) :
    widths src = lineWidths labels ++ widths y.src ∧ y.stack = levels 0 (lineWidths labels) := run_spec h

/-! ### Every line that is lexed is a step -/

theorem orFail_error {t : Token} {e : Stop} (h : orFail (emitToken t) s = .error e s') : e = .failed := by
  rw [orFail_emit] at h
  split at h
  · exact (EStateM.Result.error.inj h).1.symm
  · cases h

theorem popIndents_error {indent : Nat} {e : Stop} (h : popIndents indent line stack s = .error e s') :
    e = .failed := by
  induction stack generalizing s with
  | nil => cases h
  | cons top stack ih =>
    rw [popIndents] at h
    split at h
    · obtain h | ⟨_, _, _, h⟩ := bind_eq_error h
      · exact orFail_error h
      · exact ih h
    · cases h

theorem closeIndents_error {e : Stop} (h : closeIndents line stack s = .error e s') : e = .failed := by
  induction stack generalizing s with
  | nil => cases h
  | cons top stack ih =>
    cases stack with
    | nil => cases h
    | cons next stack =>
      obtain h | ⟨_, _, _, h⟩ := bind_eq_error h
      · exact orFail_error h
      · exact ih h

/-- The push stops for the want of room on the stack. -/
theorem setIndent_error {indent : Nat} {e : Stop} (h : setIndent indent line stack s = .error e s') :
    e = .failed ∨ e = .overrun ∧ stack.headD 0 < indent ∧ maxIndent ≤ stack.length := by
  rw [setIndent] at h
  split at h
  · next hlt =>
    split at h
    · next hfull =>
      rw [bind_error (throw_apply _ _)] at h
      exact .inr ⟨(EStateM.Result.error.inj h).1.symm, hlt, hfull⟩
    · obtain h | ⟨_, _, _, h⟩ := bind_eq_error h
      · exact .inl (orFail_error h)
      · cases h
  · exact .inl (popIndents_error h)

/-- How the loop over the lines ends, other than by a failure: at the end of the source,
or at a line for which the stack has no room. -/
theorem lineLoop_run (hn : src.length ≤ n) (h : ∀ t, lineLoop n line stack src s ≠ .error .failed t) :
    ∃ labels x, Lib.Run LineStep ⟨line, stack, src, s⟩ labels x ∧
      ((∃ t, lineLoop n line stack src s = .ok () t ∧ x.src = []) ∨
        ∃ t, lineLoop n line stack src s = .error .overrun t ∧ x.src ≠ [] ∧ ¬ Blank x.src ∧
          x.stack.headD 0 < width x.src ∧ maxIndent ≤ x.stack.length) := by
  have hend : ∀ {n line : Nat} {stack : List Nat} {s : Run},
    (∀ t, lineLoop n line stack [] s ≠ .error .failed t) →
      ∃ t, lineLoop n line stack [] s = .ok () t := by
    intro n line stack s h
    rw [lineLoop] at h ⊢
    cases hrun : (do closeIndents line stack; orFail (emit .eof line) : GkM Unit) s with
    | ok u t => exact ⟨t, rfl⟩
    | error e t =>
      obtain hclose | ⟨_, _, _, heof⟩ := bind_eq_error hrun
      · cases closeIndents_error hclose
        exact absurd hrun (h t)
      · cases orFail_error heof
        exact absurd hrun (h t)
  induction n generalizing src line stack s with
  | zero =>
    obtain rfl := List.length_eq_zero_iff.mp (Nat.le_zero.mp hn)
    obtain ⟨t, ht⟩ := hend h
    exact ⟨[], _, .nil _, .inl ⟨t, ht, rfl⟩⟩
  | succ n ih =>
    cases src with
    | nil =>
      obtain ⟨t, ht⟩ := hend h
      exact ⟨[], _, .nil _, .inl ⟨t, ht, rfl⟩⟩
    | cons c src =>
      have hrest := length_lineEnd_tail hn
      by_cases hblank : Blank (c :: src)
      · rw [lineLoop_blank hblank] at h ⊢
        obtain ⟨labels, x, hrun, hout⟩ := ih hrest h
        exact ⟨_, x, .cons (.blank hblank) hrun, hout⟩
      · rw [lineLoop_line hblank] at h ⊢
        cases hset : setIndent (width (c :: src)) line stack s with
        | error e s₁ =>
          rw [bind_error hset] at h ⊢
          obtain rfl | ⟨rfl, hlt, hfull⟩ := setIndent_error hset
          · exact absurd rfl (h s₁)
          · exact ⟨[], _, .nil _, .inr ⟨s₁, rfl, List.cons_ne_nil c src, hblank, hlt, hfull⟩⟩
        | ok stack' s₁ =>
          rw [bind_ok hset] at h ⊢
          obtain ⟨s₂, ⟨rest, hloop, -⟩ | hloop⟩ :=
            tokenLoop_returns line (Nat.le_succ (body (c :: src)).length) s₁
          · rw [bind_ok hloop] at h ⊢
            cases hnewline : orFail (emit .newline line) s₂ with
            | error e s₃ =>
              rw [bind_error hnewline] at h
              cases orFail_error hnewline
              exact absurd rfl (h s₃)
            | ok u s₃ =>
              rw [bind_ok hnewline] at h ⊢
              have hlen : rest.tail.length ≤ n := LineStep.rest_eq hloop ▸ hrest
              obtain ⟨labels, x, hrun, hout⟩ := ih hlen h
              exact ⟨_, x, .cons (.line hblank hset hloop hnewline) hrun, hout⟩
          · rw [bind_error hloop] at h
            exact absurd rfl (h s₂)

/-! ### The level of a line -/

theorem widths_nil : widths [] = [] := rfl

/-- The lines of an accepted source are those of a run to its end. -/
theorem exists_run (h : gkLex src s = .ok () s') :
    ∃ labels x, Lib.Run LineStep (lexStart src s) labels x ∧ lineWidths labels = widths src := by
  have hloop : lineLoop (src.length + 1) 1 [0] src { s with tokens := [], tokPos := 0 } = .ok () s' := h
  obtain ⟨labels, x, hrun, ⟨t, ht, hx⟩ | ⟨t, ht, -⟩⟩ :=
    lineLoop_run (Nat.le_succ src.length) (fun t ht => by rw [hloop] at ht; cases ht)
  · refine ⟨labels, x, hrun, ?_⟩
    have hwidths := (levels_of_run hrun).1
    rw [hx, widths_nil, List.append_nil] at hwidths
    exact hwidths.symm
  · rw [hloop] at ht
    cases ht

/-- Behind the INDENT and DEDENT tokens of every line, the top of the stack is its indentation. -/
def TopIsIndentation (src : List UInt8) (s : Run) : Prop :=
  ∀ labels x w stack, Lib.Run LineStep (lexStart src s) (labels ++ [some (w, stack)]) x → stack.headD 0 = w

/-- The stack behind a line is that of the lines up to it. -/
theorem stack_of_run {labels : List LineLabel} {x : LexState} {w : Nat}
    (h : Lib.Run LineStep (lexStart src s) (labels ++ [some (w, stack)]) x) :
    lineWidths labels ++ [w] <+: widths src ∧ stack = levels 0 (lineWidths labels ++ [w]) := by
  have hsnoc : lineWidths (labels ++ [some (w, stack)]) = lineWidths labels ++ [w] := List.filterMap_append
  obtain ⟨hwidths, hstack⟩ := levels_of_run h
  obtain ⟨m, _, hlast⟩ := h.split
  cases hlast with
  | cons hstep hnil =>
    cases hnil
    rw [hsnoc] at hwidths hstack
    exact ⟨⟨_, hwidths.symm⟩, (hstep.spec.2.2 _ rfl).trans hstack⟩

theorem topIsIndentation_iff_level (h : gkLex src s = .ok () s') :
    TopIsIndentation src s ↔ Level 0 (widths src) := by
  constructor
  · intro htop pre w hpre
    obtain ⟨labels, x, hrun, hlabels⟩ := exists_run h
    obtain ⟨rest, hrest⟩ := hpre
    rw [← hrest, List.append_assoc, List.singleton_append] at hlabels
    -- the run up to the line of this prefix
    obtain ⟨labels₁, labels₂, rfl, rfl, hsecond⟩ := List.filterMap_eq_append_iff.mp hlabels
    obtain ⟨blanks, label, labels₃, rfl, hblanks, hlabel, -⟩ := List.filterMap_eq_cons_iff.mp hsecond
    obtain ⟨⟨w, stack⟩, rfl, rfl⟩ := Option.map_eq_some_iff.mp hlabel
    have hsplit : labels₁ ++ (blanks ++ some (w, stack) :: labels₃) =
        (labels₁ ++ blanks ++ [some (w, stack)]) ++ labels₃ := by simp
    rw [hsplit] at hrun
    obtain ⟨m, hline, -⟩ := hrun.split
    have hpre : lineWidths (labels₁ ++ blanks) = lineWidths labels₁ := by
      rw [lineWidths, List.filterMap_append, List.filterMap_eq_nil_iff.mpr hblanks, List.append_nil]
      rfl
    have hstack := (stack_of_run hline).2
    rw [hpre] at hstack
    exact hstack ▸ htop _ m w stack hline
  · intro hlevel labels x w stack hrun
    obtain ⟨hpre, rfl⟩ := stack_of_run hrun
    exact hlevel _ _ hpre

/-- On a source that is accepted, every line has its own level if and only if each is deeper
than the one before, or at the margin, or as deep as a line with no shallower one behind it. -/
theorem top_is_indentation_iff (h : gkLex src s = .ok () s') :
    TopIsIndentation src s ↔ Consistent 0 (widths src) :=
  (topIsIndentation_iff_level h).trans (level_iff Nat.zero_le _)

theorem top_is_indentation_iff_nested : TopIsIndentation (ascii "a:\n  b\nc\n") (freshState []).start ↔
    Consistent 0 (widths (ascii "a:\n  b\nc\n")) := by
  have hok : stopOf (gkLex (ascii "a:\n  b\nc\n") (freshState []).start) = none := by decide +kernel
  cases hrun : gkLex (ascii "a:\n  b\nc\n") (freshState []).start with
  | ok u t => exact top_is_indentation_iff hrun
  | error e t =>
    rw [hrun] at hok
    cases hok

/-- The last line stands between the levels of the two lines before it. -/
def unmatched : List UInt8 := ascii "a:\n        b\n    c\n"

theorem unmatched_dedent_accepted : stopOf (gkLex unmatched (freshState []).start) = none ∧
    ¬ TopIsIndentation unmatched (freshState []).start := by
  have hok : stopOf (gkLex unmatched (freshState []).start) = none := by decide +kernel
  refine ⟨hok, fun htop => ?_⟩
  cases hrun : gkLex unmatched (freshState []).start with
  | ok u t =>
    have hwidths : widths unmatched = [0, 8, 4] := by decide +kernel
    have hlevel := (topIsIndentation_iff_level hrun).mp htop [0, 8] 4
    rw [hwidths] at hlevel
    exact absurd (hlevel (List.prefix_refl _)) (by decide)
  | error e t =>
    rw [hrun] at hok
    cases hok

/-! ### The room on the stack -/

/-- The stacks that `gk_lex` looks at: at the start of a line, behind a push, and on the way
down from these. -/
inductive StackSeen (src : List UInt8) (s : Run) : List Nat → Prop
  | start {labels : List LineLabel} {x : LexState}
      (h : Lib.Run LineStep (lexStart src s) labels x) : StackSeen src s x.stack
  | set {labels : List LineLabel} {x : LexState} {stack : List Nat} {s' : Run}
      (h : Lib.Run LineStep (lexStart src s) labels x)
      (hblank : ¬ Blank x.src) (hset : setIndent (width x.src) x.line x.stack x.run = .ok stack s') :
      StackSeen src s stack
  | pop {top indent : Nat} {stack : List Nat} (h : StackSeen src s (top :: stack))
      (hlt : indent < top) : StackSeen src s stack
  | close {top : Nat} {stack : List Nat} (h : StackSeen src s (top :: stack))
      (hne : stack ≠ []) : StackSeen src s stack

/-- The INDENT or DEDENT tokens of a line of indentation `w`. -/
def marks (w : Nat) (opened : List Nat) : Nat :=
  if 0 < w ∧ ∀ x ∈ opened, x < w then 1 else opened.countP (w < ·)

/-- The tokens of some lines, inside blocks that are open, with the NEWLINE of each. -/
def tokenCount : List Nat → List Line → Nat
  | _, [] => 0
  | opened, l :: ls =>
    marks l.width opened + l.lexemes.countP (fun x => (x.token 0).isSome) + 1 + tokenCount
      (reblock 0 l.width opened) ls

/-- Every character of the lines is known, and there is room for their tokens: `gk_lex`
gets behind them if the stack has room. -/
structure Readable (opened : List Nat) (n : Nat) (ls : List Line) : Prop where
  known : ∀ l ∈ ls, Lexeme.unknown ∉ l.lexemes
  room : n + tokenCount opened ls ≤ maxTokens

/-- No line that `gk_lex` gets to is inside more than `k` blocks. -/
def NestingAtMost (k : Nat) (src : List UInt8) : Prop :=
  ∀ pre l, pre ++ [l] <+: lines src → Readable [] 0 pre → (blocks 0 ((pre ++ [l]).map Line.width)).length ≤ k

theorem setIndent_length {indent : Nat} (h : setIndent indent line stack s = .ok stack' s')
    (hlen : stack.length ≤ maxIndent) : stack'.length ≤ maxIndent := by
  rw [setIndent] at h
  split at h
  · split at h
    · rw [bind_error (throw_apply _ _)] at h
      cases h
    · next hroom =>
      obtain ⟨_, _, _, h⟩ := bind_eq_ok h
      cases h
      exact Nat.lt_of_not_le hroom
  · rw [popIndents_eq_ok h]
    exact (List.dropWhile_sublist _).length_le.trans hlen

theorem run_length {x y : LexState} {labels : List LineLabel} (h : Lib.Run LineStep x labels y)
    (hlen : x.stack.length ≤ maxIndent) : y.stack.length ≤ maxIndent := by
  induction h with
  | nil => exact hlen
  | cons hstep _ ih =>
    refine ih ?_
    cases hstep with
    | blank => exact hlen
    | line _ hset => exact setIndent_length hset hlen

/-- What the loop over the lines looks at has its margin, and no more than the stack has room for. -/
theorem stackSeen_bounds (h : StackSeen src s stack) : stack.getLast? = some 0 ∧ stack.length ≤ maxIndent := by
  have hstart : (lexStart src s).stack.length ≤ maxIndent := by
    show 1 ≤ maxIndent
    decide
  induction h with
  | start hrun =>
    rw [(levels_of_run hrun).2]
    exact ⟨(stacked_levels Nat.zero_le _).margin, (levels_of_run hrun).2 ▸ run_length hrun hstart⟩
  | set hrun hblank hset =>
    refine ⟨?_, setIndent_length hset (run_length hrun hstart)⟩
    rw [setIndent_eq_ok hset, (levels_of_run hrun).2, ← levels_snoc]
    exact (stacked_levels Nat.zero_le _).margin
  | @pop top indent stack _ hlt ih =>
    refine ⟨?_, (Nat.le_succ _).trans ih.2⟩
    cases stack with
    | nil =>
      cases ih.1
      cases hlt
    | cons y stack => exact ih.1
  | @close top stack _ hne ih =>
    refine ⟨?_, (Nat.le_succ _).trans ih.2⟩
    cases stack with
    | nil => exact absurd rfl hne
    | cons y stack => exact ih.1

/-! The lines as far as `gk_lex` gets. -/

variable {ls : List Line} {opened : List Nat}

/-- With room for them, `n` tokens are emitted; without, the end is a failure or a full array. -/
structure Emitting {α : Type} (n : Nat) (p : GkM α) (a : α) : Prop where
  room : ∀ s : Run, s.tokens.length + n ≤ maxTokens →
    ∃ s', p s = .ok a s' ∧ s'.tokens.length = s.tokens.length + n
  full : ∀ s : Run, maxTokens < s.tokens.length + n →
    (∃ s', p s = .error .failed s') ∨ ∃ s', p s = .ok a s' ∧ maxTokens ≤ s'.tokens.length

namespace Emitting
variable {α β : Type} {m : Nat} {p : GkM α} {k : α → GkM β} {a : α} {b : β}

theorem pure (a : α) : Emitting 0 (Pure.pure a : GkM α) a :=
  ⟨fun s _ => ⟨s, rfl, rfl⟩, fun s h => .inr ⟨s, rfl, Nat.le_of_lt h⟩⟩

theorem orFail (t : Token) : Emitting 1 (orFail (emitToken t)) () := by
  constructor
  · intro s h
    exact ⟨_, by rw [orFail_emit, if_neg (by omega)], by simp⟩
  · intro s h
    exact .inl ⟨_, by rw [orFail_emit, if_pos (by omega)]⟩

theorem bind (hp : Emitting n p a) (hk : Emitting m (k a) b) : Emitting (n + m) (p >>= k) b := by
  constructor
  · intro s h
    obtain ⟨s₁, h₁, hlen₁⟩ := hp.room s (by omega)
    obtain ⟨s₂, h₂, hlen₂⟩ := hk.room s₁ (by omega)
    exact ⟨s₂, by rw [bind_ok h₁, h₂], by omega⟩
  · intro s h
    by_cases hroom : s.tokens.length + n ≤ maxTokens
    · obtain ⟨s₁, h₁, hlen₁⟩ := hp.room s hroom
      rw [bind_ok h₁]
      exact hk.full s₁ (by omega)
    · obtain ⟨s₁, h₁⟩ | ⟨s₁, h₁, hfull⟩ := hp.full s (by omega)
      · exact .inl ⟨s₁, bind_error h₁⟩
      · rw [bind_ok h₁]
        by_cases hrest : s₁.tokens.length + m ≤ maxTokens
        · obtain ⟨s₂, h₂, hlen₂⟩ := hk.room s₁ hrest
          exact .inr ⟨s₂, h₂, by omega⟩
        · exact hk.full s₁ (by omega)

end Emitting

theorem emitting_emitLexeme {l : Lexeme} (hl : l ≠ .unknown) :
    Emitting (if (l.token 0).isSome then 1 else 0) (emitLexeme 0 l) () := by
  cases l with
  | nothing => exact .pure ()
  | int v => exact .orFail _
  | text t str => exact .orFail _
  | unknown => exact absurd rfl hl
  | operator t =>
    constructor
    · intro s h
      have hroom : ¬ maxTokens ≤ s.tokens.length := by
        simp only [Lexeme.token, Option.isSome_some, if_true] at h
        omega
      exact ⟨_, bind_ok (if_neg hroom), by simp [Lexeme.token]⟩
    · intro s h
      have hfull : maxTokens ≤ s.tokens.length := by
        simp only [Lexeme.token, Option.isSome_some, if_true] at h
        omega
      exact .inr ⟨_, bind_ok (if_pos hfull), hfull⟩

theorem emitting_emitAll {ls : List Lexeme} (h : Lexeme.unknown ∉ ls) :
    Emitting (ls.countP fun x => (x.token 0).isSome) (emitAll ls) () := by
  induction ls with
  | nil => exact .pure ()
  | cons l ls ih =>
    obtain ⟨hl, hrest⟩ := not_or.mp (mt List.mem_cons.mpr h)
    have hcons := (emitting_emitLexeme (Ne.symm hl)).bind (k := fun _ => emitAll ls) (ih hrest)
    rw [List.countP_cons, Nat.add_comm]
    exact hcons

theorem emitAll_unknown {ls : List Lexeme} (h : Lexeme.unknown ∈ ls) (s : Run) :
    ∃ s', emitAll ls s = .error .failed s' := by
  induction ls generalizing s with
  | nil => cases h
  | cons l ls ih =>
    rw [emitAll]
    obtain ⟨s₁, hok | herr⟩ := emitLexeme_returns 0 l s
    · rw [bind_ok hok]
      refine ih ((List.mem_cons.mp h).resolve_left ?_) s₁
      rintro rfl
      cases hok
    · exact ⟨s₁, bind_error herr⟩

theorem emitting_popIndents (indent : Nat) (opened : List Nat) :
    Emitting (opened.takeWhile (indent < ·)).length (popIndents indent 0 (opened ++ [0]))
      ((opened ++ [0]).dropWhile (indent < ·)) := by
  induction opened with
  | nil => exact .pure _
  | cons top opened ih =>
    rw [List.cons_append, popIndents]
    by_cases hlt : indent < top
    · have hcons := (Emitting.orFail ⟨.dedent, 0, [], 0⟩).bind
        (k := fun _ => popIndents indent 0 (opened ++ [0])) ih
      rw [if_pos hlt, List.takeWhile_cons_of_pos (by simpa using hlt),
        List.dropWhile_cons_of_pos (by simpa using hlt), List.length_cons, Nat.add_comm]
      exact hcons
    · rw [if_neg hlt, List.takeWhile_cons_of_neg (by simpa using hlt),
        List.dropWhile_cons_of_neg (by simpa using hlt)]
      exact .pure _

/-- On ever deeper levels, those that are popped are the deeper ones. -/
theorem countP_deeper {w : Nat} (h : opened.Pairwise (· > ·)) :
    (opened.takeWhile (w < ·)).length = opened.countP (w < ·) := by
  induction opened with
  | nil => rfl
  | cons top opened ih =>
    obtain ⟨htop, hrest⟩ := List.pairwise_cons.mp h
    by_cases hlt : w < top
    · rw [List.takeWhile_cons_of_pos (by simpa using hlt), List.countP_cons_of_pos (by simpa using hlt),
        List.length_cons, ih hrest]
    · have hnone : opened.countP (w < ·) = 0 := List.countP_eq_zero.mpr fun x hx => by
        have := htop x hx
        simp only [decide_eq_true_eq]
        omega
      rw [List.takeWhile_cons_of_neg (by simpa using hlt), List.countP_cons_of_neg (by simpa using hlt), hnone,
        List.length_nil]

theorem opens_iff {w : Nat} (h : Stacked 0 (opened ++ [0])) :
    (opened ++ [0]).headD 0 < w ↔ 0 < w ∧ ∀ x ∈ opened, x < w := by
  constructor
  · intro hlt
    exact ⟨by omega, fun x hx => lt_of_le_of_lt (h.le_headD (List.mem_append_left _ hx)) hlt⟩
  · rintro ⟨hpos, hbelow⟩
    cases opened with
    | nil => exact hpos
    | cons top opened => exact hbelow top (List.mem_cons_self ..)

theorem emitting_setIndent {w : Nat} (h : Stacked 0 (opened ++ [0]))
    (hroom : ¬ ((opened ++ [0]).headD 0 < w ∧ maxIndent ≤ (opened ++ [0]).length)) :
    Emitting (marks w opened) (setIndent w 0 (opened ++ [0])) (reblock 0 w opened ++ [0]) := by
  rw [← reindent_blocks Nat.zero_le h]
  by_cases hlt : (opened ++ [0]).headD 0 < w
  · rw [setIndent_push hlt (by omega), marks, if_pos ((opens_iff h).mp hlt), reindent, if_pos hlt]
    exact (Emitting.orFail _).bind (k := fun _ => return w :: (opened ++ [0])) (.pure _)
  · rw [setIndent, if_neg hlt, marks, if_neg (mt (opens_iff h).mpr hlt), reindent, if_neg hlt,
      ← countP_deeper (List.pairwise_append.mp h.sorted).1]
    exact emitting_popIndents w opened

theorem tokenCount_singleton (opened : List Nat) (l : Line) :
    tokenCount opened [l] = marks l.width opened + l.lexemes.countP (fun x => (x.token 0).isSome) + 1 := rfl

/-- A line that the stack has room for: it fails, or the lexer goes on with the other lines. -/
theorem lexLines_line {l : Line} (ls : List Line) (h : Stacked 0 (opened ++ [0]))
    (hfull : ¬ ((opened ++ [0]).headD 0 < l.width ∧ maxIndent ≤ (opened ++ [0]).length)) (s : Run) :
    ¬ Readable opened s.tokens.length [l] ∧ (∃ t, lexLines (opened ++ [0]) (l :: ls) s = .error .failed t) ∨
      Readable opened s.tokens.length [l] ∧ ∃ s', lexLines (opened ++ [0]) (l :: ls) s =
        lexLines (reblock 0 l.width opened ++ [0]) ls s' ∧
        s'.tokens.length = s.tokens.length + tokenCount opened [l] := by
  have hset := emitting_setIndent h hfull
  rw [lexLines]
  by_cases hknown : Lexeme.unknown ∈ l.lexemes
  · refine .inl ⟨fun hread => hread.known l (List.mem_singleton_self l) hknown, ?_⟩
    have hline : ∀ s₁, setIndent l.width 0 (opened ++ [0]) s = .ok (reblock 0 l.width opened ++ [0]) s₁ →
        ∃ t, (setIndent l.width 0 (opened ++ [0]) >>= fun stack => do
          emitAll l.lexemes
          orFail (emit .newline 0)
          lexLines stack ls) s = .error .failed t := by
      intro s₁ h₁
      obtain ⟨s₂, h₂⟩ := emitAll_unknown hknown s₁
      exact ⟨s₂, by rw [bind_ok h₁, bind_error h₂]⟩
    by_cases hroom : s.tokens.length + marks l.width opened ≤ maxTokens
    · obtain ⟨s₁, h₁, -⟩ := hset.room s hroom
      exact hline s₁ h₁
    · obtain ⟨s₁, h₁⟩ | ⟨s₁, h₁, -⟩ := hset.full s (by omega)
      · exact ⟨s₁, bind_error h₁⟩
      · exact hline s₁ h₁
  · have hline := hset.bind (k := fun stack => do
      emitAll l.lexemes
      return stack) ((emitting_emitAll hknown).bind (.pure (reblock 0 l.width opened ++ [0])))
    have hsplit : (do
        let stack ← setIndent l.width 0 (opened ++ [0])
        emitAll l.lexemes
        orFail (emit .newline 0)
        lexLines stack ls) = ((do
        let stack ← setIndent l.width 0 (opened ++ [0])
        emitAll l.lexemes
        return stack) >>= fun stack => do
          orFail (emit .newline 0)
          lexLines stack ls) := by simp only [bind_assoc, pure_bind]
    have hread : Readable opened s.tokens.length [l] ↔ s.tokens.length + tokenCount opened [l] ≤ maxTokens :=
      ⟨Readable.room, fun hroom => ⟨by simpa using hknown, hroom⟩⟩
    rw [hsplit, hread, tokenCount_singleton]
    by_cases hroom : s.tokens.length +
      (marks l.width opened + (l.lexemes.countP fun x => (x.token 0).isSome) + 1) ≤
        maxTokens
    · obtain ⟨s₁, h₁, hlen₁⟩ := hline.room s (by omega)
      obtain ⟨s₂, h₂, hlen₂⟩ := (Emitting.orFail ⟨.newline, 0, [], 0⟩).room s₁ (by omega)
      exact .inr ⟨hroom, s₂, by rw [bind_ok h₁, emit, bind_ok h₂], by omega⟩
    · refine .inl ⟨hroom, ?_⟩
      -- the NEWLINE finds no room
      have hend : ∀ s₁, maxTokens ≤ s₁.tokens.length → ∃ t, (do
          orFail (emit .newline 0)
          lexLines (reblock 0 l.width opened ++ [0]) ls) s₁ = .error .failed t :=
        fun s₁ hfull => ⟨_, bind_error (by rw [emit, orFail_emit, if_pos hfull])⟩
      by_cases hbefore : s.tokens.length + (marks l.width opened +
          ((l.lexemes.countP fun x => (x.token 0).isSome) + 0)) ≤ maxTokens
      · obtain ⟨s₁, h₁, hlen₁⟩ := hline.room s hbefore
        rw [bind_ok h₁]
        exact hend s₁ (by omega)
      · obtain ⟨s₁, h₁⟩ | ⟨s₁, h₁, hlen₁⟩ := hline.full s (by omega)
        · exact ⟨s₁, bind_error h₁⟩
        · rw [bind_ok h₁]
          exact hend s₁ hlen₁

theorem readable_cons {l : Line} : Readable opened n (l :: ls) ↔
    Readable opened n [l] ∧ Readable (reblock 0 l.width opened) (n + tokenCount opened [l]) ls := by
  have hcount : tokenCount opened (l :: ls) = tokenCount opened [l] + tokenCount
    (reblock 0 l.width opened) ls := rfl
  constructor
  · intro h
    have hroom := h.room
    rw [hcount] at hroom
    exact ⟨⟨fun x hx => h.known x (by simp_all), by omega⟩, fun x hx =>
      h.known x (List.mem_cons_of_mem _ hx), by omega⟩
  · rintro ⟨hl, hrest⟩
    refine ⟨List.forall_mem_cons.mpr ⟨hl.known l (List.mem_singleton_self l), hrest.known⟩, ?_⟩
    have := hrest.room
    omega

/-- The push overruns exactly at a line that the lexer gets to inside 63 blocks or more. -/
theorem lexLines_overrun_iff (ls : List Line) (h : Stacked 0 (opened ++ [0]))
    (hlen : opened.length ≤ maxIndent - 1) {s : Run}
    (hs : s.tokens.length ≤ maxTokens) :
    (∃ t, lexLines (opened ++ [0]) ls s = .error .overrun t) ↔
      ∃ pre l, pre ++ [l] <+: ls ∧ Readable opened s.tokens.length pre ∧
        maxIndent - 1 < (((pre ++ [l]).map Line.width).foldl (fun opened w => reblock 0 w opened)
          opened).length := by
  induction ls generalizing opened s with
  | nil =>
    constructor
    · rintro ⟨t, ht⟩
      obtain hclose | ⟨_, _, _, heof⟩ := bind_eq_error ht
      · cases closeIndents_error hclose
      · cases orFail_error heof
    · rintro ⟨pre, l, hpre, -⟩
      exact absurd (List.prefix_nil.mp hpre) (List.append_ne_nil_of_right_ne_nil pre (List.cons_ne_nil l []))
  | cons l ls ih =>
    have hlength : (opened ++ [0]).length = opened.length + 1 := List.length_append
    by_cases hfull : (opened ++ [0]).headD 0 < l.width ∧ maxIndent ≤ (opened ++ [0]).length
    · refine iff_of_true ⟨s, bind_error ?_⟩ ⟨[], l, ⟨ls, rfl⟩, ⟨nofun, hs⟩, ?_⟩
      · rw [setIndent, if_pos hfull.1, if_pos hfull.2]
        exact bind_error (throw_apply _ _)
      · show maxIndent - 1 < (reblock 0 l.width opened).length
        rw [reblock, if_pos ((opens_iff h).mp hfull.1), List.length_cons]
        omega
    · have hopened : (reblock 0 l.width opened).length ≤ maxIndent - 1 := by
        rw [reblock]
        split
        · next hopens =>
          have := not_and.mp hfull ((opens_iff h).mpr hopens)
          rw [List.length_cons]
          omega
        · exact (List.length_filter_le _ _).trans hlen
      -- the first of the lines that are read is `l`
      have hfirst : ∀ {pre : List Line} {x : Line}, pre ++ [x] <+: l :: ls →
          maxIndent - 1 < (((pre ++ [x]).map Line.width).foldl (fun opened w => reblock 0 w opened)
            opened).length →
          ∃ pre', pre = l :: pre' ∧ pre' ++ [x] <+: ls := by
        intro pre x hpre hdeep
        cases pre with
        | nil =>
          obtain ⟨rfl, -⟩ := List.cons_prefix_cons.mp hpre
          exact absurd hdeep (Nat.not_lt.mpr hopened)
        | cons y pre =>
          obtain ⟨rfl, hrest⟩ := List.cons_prefix_cons.mp hpre
          exact ⟨pre, rfl, hrest⟩
      obtain ⟨hread, t, ht⟩ | ⟨hread, s', hs', hlen'⟩ := lexLines_line ls h hfull s
      · refine iff_of_false ?_ ?_
        · rintro ⟨t', ht'⟩
          rw [ht] at ht'
          cases ht'
        · rintro ⟨pre, x, hpre, hpreRead, hdeep⟩
          obtain ⟨pre', rfl, -⟩ := hfirst hpre hdeep
          exact hread (readable_cons.mp hpreRead).1
      · have hstacked : Stacked 0 (reblock 0 l.width opened ++ [0]) :=
          reindent_blocks Nat.zero_le h l.width ▸ (h.reindent (Nat.zero_le l.width)).1
        rw [hs', ih hstacked hopened (by have := hread.room; omega), hlen']
        constructor
        · rintro ⟨pre, x, hpre, hpreRead, hdeep⟩
          exact ⟨l :: pre, x, List.cons_prefix_cons.mpr ⟨rfl, hpre⟩, readable_cons.mpr ⟨hread, hpreRead⟩, hdeep⟩
        · rintro ⟨pre, x, hpre, hpreRead, hdeep⟩
          obtain ⟨pre', rfl, hrest⟩ := hfirst hpre hdeep
          exact ⟨pre', x, hrest, (readable_cons.mp hpreRead).2, hdeep⟩

/-- No stack that is looked at lacks its margin or has more than MAX_INDENT entries and no push is
made without room, exactly if no line that the lexer gets to is inside more than 63 blocks. -/
theorem indent_stack_in_bounds_iff (src : List UInt8) (s : Run) :
    ((∀ stack, StackSeen src s stack → 0 < stack.length ∧ stack.length ≤ maxIndent) ∧
      ∀ t, gkLex src s ≠ .error .overrun t) ↔ NestingAtMost (maxIndent - 1) src := by
  have hover : (∃ t, gkLex src s = .error .overrun t) ↔ ¬ NestingAtMost (maxIndent - 1) src := by
    have hthrough : (∃ t, gkLex src s = .error .overrun t) ↔ ∃ t, lexOutcome src s = .error .overrun t := by
      unfold lexOutcome
      cases gkLex src s with
      | ok u t => simp [through]
      | error e t => simp [through]
    rw [hthrough, lexOutcome_eq]
    have hmargin : Stacked 0 (([] : List Nat) ++ [0]) := .single 0
    refine (lexLines_overrun_iff (lines src) hmargin (Nat.zero_le _) (Nat.zero_le _)).trans ?_
    unfold NestingAtMost blocks
    push Not
    rfl
  constructor
  · rintro ⟨-, hnever⟩
    by_contra hdeep
    obtain ⟨t, ht⟩ := hover.mpr hdeep
    exact hnever t ht
  · intro hnest
    refine ⟨fun stack hseen => ?_, fun t ht => hover.mp ⟨t, ht⟩ hnest⟩
    obtain ⟨hmargin, hle⟩ := stackSeen_bounds hseen
    refine ⟨?_, hle⟩
    cases stack with
    | nil => cases hmargin
    | cons top stack => exact Nat.succ_pos _

/-- 64 lines, each a space deeper than the one before. -/
def staircase : List UInt8 := (List.range 64).flatMap fun k => List.replicate (k + 1) ' '.toUInt8 ++ ascii "x\n"

theorem staircase_overruns : staircase.length < 8192 ∧
    stopOf (gkLex staircase (freshState []).start) = some .overrun := by
  decide +kernel

end GeckoOS.Gk
