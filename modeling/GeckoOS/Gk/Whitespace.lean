import GeckoOS.Gk.Lines

/-! Leading whitespace and blank lines. A tab counts as four spaces and a blank line
is dropped exactly where no tab stands in front of a space. -/
namespace GeckoOS.Gk
open Lib

/-- Four spaces for each tab. -/
def untab (w : List UInt8) : List UInt8 :=
  w.flatMap fun c => if c = '\t'.toUInt8 then List.replicate 4 ' '.toUInt8 else [c]

/-- First spaces and then tabs. -/
def TabsLast (w : List UInt8) : Prop := ∃ i j, w = List.replicate i ' '.toUInt8 ++ List.replicate j '\t'.toUInt8

/-- Wherever `w` is the whitespace in front of a line, its tabs can be written as spaces. -/
def TabsAreSpaces (w : List UInt8) : Prop :=
  ∀ pre rest s, Complete pre → (∀ c ∈ rest.head?, isSpace c = false) →
    lexOutcome (pre ++ (w ++ rest)) s = lexOutcome (pre ++ (untab w ++ rest)) s

/-- Wherever a line is `w` and maybe a comment, it can be left out. -/
def BlankIgnored (w : List UInt8) : Prop :=
  ∀ pre comment eol s, Complete pre →
    (comment = [] ∨ ∃ text, comment = '#'.toUInt8 :: text ∧ '\n'.toUInt8 ∉ text) →
    (eol = [] ∨ ∃ rest, eol = '\n'.toUInt8 :: rest) →
    lexOutcome (pre ++ (w ++ (comment ++ eol))) s = lexOutcome (pre ++ eol.tail) s

variable {w rest : List UInt8} {i j : Nat} {s : Run}

/-- What is measured of spaces and tabs behind them. -/
theorem measure_replicate (i : Nat) (htab : rest.head? ≠ some '\t'.toUInt8)
    (hspace : j = 0 → rest.head? ≠ some ' '.toUInt8) :
    width (List.replicate i ' '.toUInt8 ++ (List.replicate j '\t'.toUInt8 ++ rest)) = i + 4 * j ∧
      body (List.replicate i ' '.toUInt8 ++ (List.replicate j '\t'.toUInt8 ++ rest)) = rest := by
  have htake {p : UInt8 → Bool} {c : UInt8} {tail : List UInt8} (k : Nat) (hc : p c = true)
      (htail : ∀ d ∈ tail.head?, p d = false) : (List.replicate k c ++ tail).takeWhile p =
        List.replicate k c := by
    rw [List.takeWhile_append_of_pos fun d hd => (List.eq_of_mem_replicate hd).symm ▸ hc]
    cases tail with
    | nil => simp
    | cons d tail => rw [List.takeWhile_cons_of_neg (by simp [htail d rfl]), List.append_nil]
  have hfirst : (List.replicate i ' '.toUInt8 ++ (List.replicate j '\t'.toUInt8 ++ rest)).takeWhile
    (· == ' '.toUInt8) =
      List.replicate i ' '.toUInt8 := by
    refine htake i (by decide) fun d hd => ?_
    cases j with
    | zero =>
      have hne : d ≠ ' '.toUInt8 := fun heq => hspace rfl (heq ▸ hd)
      simpa using hne
    | succ j =>
      cases hd
      decide
  have hsecond : (List.replicate j '\t'.toUInt8 ++ rest).takeWhile (· == '\t'.toUInt8) =
    List.replicate j '\t'.toUInt8 := by
    refine htake j (by decide) fun d hd => ?_
    have hne : d ≠ '\t'.toUInt8 := fun heq => htab (heq ▸ hd)
    simpa using hne
  have hafter : afterSpaces (List.replicate i ' '.toUInt8 ++ (List.replicate j '\t'.toUInt8 ++ rest)) =
      List.replicate j '\t'.toUInt8 ++ rest := by
    rw [afterSpaces, hfirst, List.drop_left]
  constructor
  · rw [width, hafter, hfirst, hsecond, List.length_replicate, List.length_replicate]
  · rw [body, hafter, hsecond, List.drop_left]

theorem lineEnd_spaces (hw : ∀ c ∈ w, isSpace c = true) (rest : List UInt8) :
    lineEnd (w ++ rest) = lineEnd rest := by
  induction w with
  | nil => rfl
  | cons c w ih =>
    obtain ⟨hc, hw⟩ := List.forall_mem_cons.mp hw
    rw [List.cons_append, lineEnd_space hc, ih hw]

theorem lines_congr {src src' : List UInt8} (hwidth : width src = width src') (hbody : body src = body src') :
    lines src = lines src' := by
  have hend : lineEnd src = lineEnd src' := by rw [← lineEnd_body, hbody, lineEnd_body]
  have hblank : Blank src ↔ Blank src' := by rw [Blank, Blank, hbody]
  rw [lines_eq, lines_eq src']
  simp only [firstLine, hblank, hwidth, hbody, hend]

theorem untab_append (w w' : List UInt8) : untab (w ++ w') = untab w ++ untab w' := List.flatMap_append

theorem untab_spaces (i : Nat) : untab (List.replicate i ' '.toUInt8) = List.replicate i ' '.toUInt8 := by
  induction i with
  | zero => rfl
  | succ i ih => exact congrArg (' '.toUInt8 :: ·) ih

theorem untab_tabs (j : Nat) : untab (List.replicate j '\t'.toUInt8) = List.replicate (4 * j) ' '.toUInt8 := by
  induction j with
  | zero => rfl
  | succ j ih =>
    have hstep : untab (List.replicate (j + 1) '\t'.toUInt8) =
        List.replicate 4 ' '.toUInt8 ++ untab (List.replicate j '\t'.toUInt8) := rfl
    rw [hstep, ih, List.replicate_append_replicate, Nat.mul_succ, Nat.add_comm]

/-- The two measures are the same, and so is everything behind them. -/
theorem TabsLast.tabsAreSpaces (h : TabsLast w) : TabsAreSpaces w := by
  intro pre rest s hpre hrest
  obtain ⟨i, j, rfl⟩ := h
  have hhead : rest.head? ≠ some '\t'.toUInt8 ∧ rest.head? ≠ some ' '.toUInt8 := by
    constructor
    · exact fun heq => absurd (hrest _ heq) (by decide)
    · exact fun heq => absurd (hrest _ heq) (by decide)
  obtain ⟨hwidth, hbody⟩ := measure_replicate (j := j) i hhead.1 fun _ => hhead.2
  obtain ⟨hwidth', hbody'⟩ := measure_replicate (j := 0) (i + 4 * j) hhead.1 fun _ => hhead.2
  rw [untab_append, untab_spaces, untab_tabs, List.replicate_append_replicate, List.append_assoc,
    lexOutcome_eq, lexOutcome_eq, lines_append hpre, lines_append hpre]
  exact congrArg (fun ls => lexLines [0] (lines pre ++ ls) _)
    (lines_congr (hwidth.trans hwidth'.symm) (hbody.trans hbody'.symm))

/-- What stands behind the whitespace of a blank line. -/
private theorem blank_start {comment eol : List UInt8}
    (hcomment : comment = [] ∨ ∃ text, comment = '#'.toUInt8 :: text ∧ '\n'.toUInt8 ∉ text)
    (heol : eol = [] ∨ ∃ rest, eol = '\n'.toUInt8 :: rest) :
    (comment ++ eol = [] ∨ (comment ++ eol).headD 0 = '\n'.toUInt8 ∨ (comment ++ eol).headD 0 = '#'.toUInt8) ∧
      (comment ++ eol).dropWhile (· != '\n'.toUInt8) = eol := by
  have hline : eol.dropWhile (· != '\n'.toUInt8) = eol := by
    obtain rfl | ⟨rest, rfl⟩ := heol
    · rfl
    · exact List.dropWhile_cons_of_neg (by simp)
  obtain rfl | ⟨text, rfl, htext⟩ := hcomment
  · refine ⟨?_, hline⟩
    obtain rfl | ⟨rest, rfl⟩ := heol
    · exact .inl rfl
    · exact .inr (.inl rfl)
  · refine ⟨.inr (.inr rfl), ?_⟩
    rw [List.dropWhile_append_of_pos, hline]
    intro c hc
    cases hc with
    | head => decide
    | tail _ hc => simpa using fun heq : c = '\n'.toUInt8 => htext (heq ▸ hc)

theorem TabsLast.blankIgnored (h : TabsLast w) : BlankIgnored w := by
  intro pre comment eol s hpre hcomment heol
  obtain ⟨i, j, rfl⟩ := h
  obtain ⟨hstart, hdrop⟩ := blank_start hcomment heol
  have hhead : ∀ c, isSpace c = true → (comment ++ eol).head? ≠ some c := by
    intro c hc heq
    cases hsrc : comment ++ eol with
    | nil =>
      rw [hsrc] at heq
      cases heq
    | cons d tail =>
      rw [hsrc] at heq hstart
      obtain rfl : d = c := Option.some.inj heq
      obtain h | rfl | rfl := hstart
      · cases h
      · exact absurd hc (by decide)
      · exact absurd hc (by decide)
  obtain ⟨-, hbody⟩ := measure_replicate (j := j) i (hhead _ (by decide)) fun _ => hhead _ (by decide)
  rw [← List.append_assoc] at hbody
  have hblank : Blank (List.replicate i ' '.toUInt8 ++ List.replicate j '\t'.toUInt8 ++ (comment ++ eol)) := by
    rw [Blank, hbody]
    exact hstart
  rw [lexOutcome_eq, lexOutcome_eq, lines_append hpre, lines_append hpre,
    lines_eq (_ ++ (comment ++ eol)), firstLine, if_pos hblank, lineEnd_of_blank hblank, hbody, hdrop,
    List.nil_append]

/-! Whitespace with a tab in front of a space. -/

/-- Whitespace that is not in order has a tab in front of a space. -/
theorem spaces_cases (hw : ∀ c ∈ w, isSpace c = true) : TabsLast w ∨ ∃ i j v, (∀ c ∈ v, isSpace c = true) ∧
    w = List.replicate i ' '.toUInt8 ++ (List.replicate (j + 1) '\t'.toUInt8 ++ ' '.toUInt8 :: v) := by
  induction w with
  | nil => exact .inl ⟨0, 0, rfl⟩
  | cons c w ih =>
    obtain ⟨hc, htail⟩ := List.forall_mem_cons.mp hw
    have hcases : c = ' '.toUInt8 ∨ c = '\t'.toUInt8 := by simpa [isSpace] using hc
    obtain rfl | rfl := hcases
    · obtain ⟨i, j, rfl⟩ | ⟨i, j, v, hv, rfl⟩ := ih htail
      · exact .inl ⟨i + 1, j, rfl⟩
      · exact .inr ⟨i + 1, j, v, hv, rfl⟩
    · obtain ⟨i, j, rfl⟩ | ⟨i, j, v, hv, rfl⟩ := ih htail
      · cases i with
        | zero => exact .inl ⟨0, j + 1, rfl⟩
        | succ i =>
          exact .inr ⟨0, 0, List.replicate i ' '.toUInt8 ++ List.replicate j '\t'.toUInt8,
            (List.forall_mem_cons.mp htail).2, rfl⟩
      · cases i with
        | zero => exact .inr ⟨0, j + 1, v, hv, rfl⟩
        | succ i =>
          exact .inr ⟨0, 0, List.replicate i ' '.toUInt8 ++
            (List.replicate (j + 1) '\t'.toUInt8 ++ ' '.toUInt8 :: v), (List.forall_mem_cons.mp htail).2, rfl⟩

theorem lexemes_spaces (hw : ∀ c ∈ w, isSpace c = true) (n : Nat) : ∀ l ∈ (lexemes n w).1, l = .nothing := by
  induction w generalizing n with
  | nil => cases n <;> exact fun l hl => absurd hl List.not_mem_nil
  | cons c w ih =>
    obtain ⟨hc, hw⟩ := List.forall_mem_cons.mp hw
    cases n with
    | zero => exact fun l hl => absurd hl List.not_mem_nil
    | succ n =>
      rw [lexemes]
      split
      · exact fun l hl => absurd hl List.not_mem_nil
      · have hlexeme : lexeme c w = (.nothing, w) := if_pos hc
        rw [hlexeme]
        exact List.forall_mem_cons.mpr ⟨rfl, ih hw n⟩

theorem emitAll_nothing {ls : List Lexeme} (h : ∀ l ∈ ls, l = .nothing) : emitAll ls = pure () := by
  induction ls with
  | nil => rfl
  | cons l ls ih =>
    obtain ⟨rfl, htail⟩ := List.forall_mem_cons.mp h
    exact ih htail

/-- The whitespace alone is a line with an indentation, and so not blank. -/
theorem lexOutcome_ne_of_tab_space {v : List UInt8} (hv : ∀ c ∈ v, isSpace c = true) (s : Run) :
    lexOutcome (List.replicate i ' '.toUInt8 ++
      (List.replicate (j + 1) '\t'.toUInt8 ++ ' '.toUInt8 :: v)) s ≠ lexOutcome [] s := by
  have hhead : (' '.toUInt8 :: v).head? ≠ some '\t'.toUInt8 :=
    fun heq => absurd (Option.some.inj heq) (by decide)
  obtain ⟨hwidth, hbody⟩ := measure_replicate (j := j + 1) i hhead fun h => absurd h (Nat.succ_ne_zero j)
  generalize hsrc : List.replicate i ' '.toUInt8 ++
    (List.replicate (j + 1) '\t'.toUInt8 ++ ' '.toUInt8 :: v) = src at *
  have hblank : ¬ Blank src := by
    rw [Blank, hbody]
    rintro (h | h | h)
    · cases h
    · exact absurd (show ' '.toUInt8 = '\n'.toUInt8 from h) (by decide)
    · exact absurd (show ' '.toUInt8 = '#'.toUInt8 from h) (by decide)
  have hend : lineEnd src = [] := by
    rw [← lineEnd_body, hbody, lineEnd_space (by decide), ← List.append_nil v, lineEnd_spaces hv]
    rfl
  have hspaces : ∀ c ∈ body src, isSpace c = true := hbody ▸ List.forall_mem_cons.mpr ⟨by decide, hv⟩
  have hlines : lines src = [⟨width src, (lexemes (body src).length (body src)).1⟩] := by
    rw [lines_eq, firstLine, if_neg hblank, hend]
    rfl
  have hpos : 0 < width src := by omega
  have hroom (t : Token) {u : Run} (hu : u.tokens.length < 4) :
      orFail (emitToken t) u = .ok () { u with tokens := u.tokens ++ [t] } := by
    rw [orFail_emit, if_neg (by simp only [maxTokens]; omega)]
  have hline (u : Run) (hu : u.tokens = []) : lexLines [0]
    [⟨width src, (lexemes (body src).length (body src)).1⟩] u =
      .ok () { u with tokens := [⟨.indent, 0, [], 0⟩, ⟨.newline, 0, [], 0⟩, ⟨.dedent, 0, [], 0⟩,
        ⟨.eof, 0, [], 0⟩] } := by
    have hset : setIndent (width src) 0 [0] u = .ok [width src, 0]
      { u with tokens := [⟨.indent, 0, [], 0⟩] } := by
      rw [setIndent_push hpos (by decide), emit, bind_ok (hroom ⟨.indent, 0, [], 0⟩ (by rw [hu]; decide)), hu]
      rfl
    rw [lexLines, bind_ok hset, emitAll_nothing (lexemes_spaces hspaces _), bind_ok (pure_apply _ _), emit,
      bind_ok (hroom _ (by simp)), lexLines, closeIndents]
    · rw [bind_assoc, emit, bind_ok (hroom _ (by simp)),
        bind_ok (show closeIndents 0 [0] _ = .ok () _ from rfl)]
      exact hroom _ (by simp)
    · simp
  have hnone (u : Run) (hu : u.tokens = []) : lexLines [0] [] u =
    .ok () { u with tokens := [⟨.eof, 0, [], 0⟩] } := by
    rw [lexLines, closeIndents, bind_ok (pure_apply _ _), emit, hroom _ (by rw [hu]; decide), hu]
    rfl
  rw [lexOutcome_eq, lexOutcome_eq, hlines, hline _ rfl]
  rw [show lines [] = [] from rfl, hnone _ rfl]
  intro h
  have htokens := congrArg (fun r => (final r).tokens.length) h
  cases htokens

theorem untab_eq (hw : ∀ c ∈ w, isSpace c = true) : ∃ n, untab w = List.replicate n ' '.toUInt8 := by
  induction w with
  | nil => exact ⟨0, rfl⟩
  | cons c w ih =>
    obtain ⟨hc, htail⟩ := List.forall_mem_cons.mp hw
    obtain ⟨n, hn⟩ := ih htail
    have hcases : c = ' '.toUInt8 ∨ c = '\t'.toUInt8 := by simpa [isSpace] using hc
    obtain rfl | rfl := hcases
    · exact ⟨n + 1, congrArg (' '.toUInt8 :: ·) hn⟩
    · exact ⟨n + 4, congrArg (List.replicate 4 ' '.toUInt8 ++ ·) hn⟩

private theorem not_blankIgnored {v : List UInt8} (hv : ∀ c ∈ v, isSpace c = true) :
    ¬ BlankIgnored (List.replicate i ' '.toUInt8 ++
      (List.replicate (j + 1) '\t'.toUInt8 ++ ' '.toUInt8 :: v)) := by
  intro h
  have hblank := h [] [] [] (freshState []).start .nil (.inl rfl) (.inl rfl)
  simp only [List.nil_append, List.append_nil, List.tail_nil] at hblank
  exact lexOutcome_ne_of_tab_space hv _ hblank

/-- With spaces for its tabs the whitespace is a blank line. -/
private theorem not_tabsAreSpaces {v : List UInt8} (hv : ∀ c ∈ v, isSpace c = true)
    (hw : ∀ c ∈ List.replicate i ' '.toUInt8 ++
      (List.replicate (j + 1) '\t'.toUInt8 ++ ' '.toUInt8 :: v), isSpace c = true) :
    ¬ TabsAreSpaces (List.replicate i ' '.toUInt8 ++
      (List.replicate (j + 1) '\t'.toUInt8 ++ ' '.toUInt8 :: v)) := by
  intro h
  obtain ⟨n, hn⟩ := untab_eq hw
  have hlast : TabsLast (List.replicate n ' '.toUInt8) := ⟨n, 0, (List.append_nil _).symm⟩
  have hblank := hlast.blankIgnored [] [] [] (freshState []).start .nil (.inl rfl) (.inl rfl)
  have heq := h [] [] (freshState []).start .nil nofun
  rw [hn] at heq
  simp only [List.nil_append, List.append_nil, List.tail_nil] at hblank heq
  exact lexOutcome_ne_of_tab_space hv _ (heq.trans hblank)

/-- Tabs in front of a line count as four spaces, and a blank line is dropped, in every
source if and only if no tab stands in front of a space there. -/
theorem whitespace_insignificant_iff (hw : ∀ c ∈ w, isSpace c = true) :
    (TabsAreSpaces w ↔ TabsLast w) ∧ (BlankIgnored w ↔ TabsLast w) := by
  obtain hlast | ⟨i, j, v, hv, rfl⟩ := spaces_cases hw
  · exact ⟨iff_of_true hlast.tabsAreSpaces hlast, iff_of_true hlast.blankIgnored hlast⟩
  · have hblank := not_blankIgnored (i := i) (j := j) hv
    exact ⟨iff_of_false (not_tabsAreSpaces hv hw) fun h => hblank h.blankIgnored,
      iff_of_false hblank fun h => hblank h.blankIgnored⟩

theorem whitespace_insignificant_iff_mixed : (TabsAreSpaces (ascii "  \t") ↔ TabsLast (ascii "  \t")) ∧
    (BlankIgnored (ascii "  \t") ↔ TabsLast (ascii "  \t")) := whitespace_insignificant_iff (by decide +kernel)

/-- A line of a tab and a space opens a block. -/
theorem tab_space_opens_block : ¬ TabsAreSpaces (ascii "\t ") ∧ ¬ BlankIgnored (ascii "\t ") :=
  ⟨not_tabsAreSpaces (i := 0) (j := 0) (v := []) nofun (by decide +kernel),
    not_blankIgnored (i := 0) (j := 0) (v := []) nofun⟩

end GeckoOS.Gk
