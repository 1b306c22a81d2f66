import GeckoOS.Terminal.Input
import Mathlib.Data.List.Induction
import Mathlib.Data.List.Infix

/-! `input` against a line editor that knows the last ten lines. -/
namespace GeckoOS.Terminal
open Lib

/-! What is expected of a line editor. -/

inductive LineKey where
  | up | down | enter | erase | char (c : UInt8) | other
  deriving DecidableEq

/-- The line, and the one that was typed when the history was entered; the place is the
number of steps into the history. -/
structure LineEditor where
  line : List UInt8
  typed : List UInt8
  place : Nat
  entered : Bool

namespace LineEditor
variable (limit : Nat) (recent : List (List UInt8)) (ed : LineEditor)

def goTo (place : Nat) : LineEditor :=
  { ed with place, line := if place = 0 then ed.typed else (recent.getD (place - 1) []).take limit }

def press : LineKey → LineEditor
  | .up =>
    { ed with typed := if ed.place = 0 then ed.line else ed.typed }.goTo limit recent
    (min (ed.place + 1) recent.length)
  | .down => if ed.place = 0 then ed else ed.goTo limit recent (ed.place - 1)
  | .enter => { ed with entered := true }
  | .erase => { ed with line := ed.line.dropLast }
  | .char c => if ed.line.length < limit then { ed with line := ed.line ++ [c] } else ed
  | .other => ed

/-- Enter ends the line. -/
def step (key : LineKey) : LineEditor := if ed.entered then ed else ed.press limit recent key

def run (keys : List LineKey) : LineEditor := keys.foldl (step limit recent) ⟨[], [], 0, false⟩

end LineEditor

namespace LineEditor

theorem step_of_down {limit : Nat} {recent : List (List UInt8)} {ed : LineEditor} (hplace : ed.place = 0) :
    ed.step limit recent .down = ed := by
  rw [step, press, if_pos hplace, ite_self]

theorem line_step_enter (limit : Nat) (recent : List (List UInt8)) (ed : LineEditor) :
    (ed.step limit recent .enter).line = ed.line ∧ (ed.step limit recent .enter).entered = true := by
  rw [step]
  split
  · exact ⟨rfl, ‹_›⟩
  · exact ⟨rfl, rfl⟩

end LineEditor

/-- The key behind a scancode. -/
def Scan.key (e : Scan) : LineKey :=
  if e.sc &&& 0x80 ≠ 0 ∨ e.sc = 0 then .other
  else if e.sc = keyUp then .up
  else if e.sc = keyDown then .down
  else if e.ascii = newline then .enter
  else if e.ascii = backspace then .erase
  else if 0x20 ≤ e.ascii then .char e.ascii
  else .other

/-! The history of lines. -/

def historyPushAll (past : List View) : PastLines := past.foldl historyPush .none

/-- The nonempty lines, the latest first. -/
def lines (past : List View) : List (List UInt8) := ((past.map fun buf => buf.text 511).filter (· ≠ [])).reverse

/-- The lines that the history keeps. -/
def recent (past : List View) : List (List UInt8) := (lines past).take historySize

/-- The ring holds these lines. -/
def Remembers (past : PastLines) (ls : List (List UInt8)) : Prop :=
  Latest historySize past.head past.count (fun i l => (past.entries i).text 512 = l) ls

theorem text_eq_nil_iff (m : View) (n : Nat) : m.text (n + 1) = [] ↔ m 0 = 0 := by
  have hfirst : m.text 1 = if m 0 ≠ 0 then [m 0] else [] := by
    rw [View.text_succ]
    simp [View.text]
  have htake := View.text_add_of_le m (show 1 ≤ n + 1 by omega)
  constructor
  · intro h
    by_contra hne
    rw [hfirst, if_pos hne, h] at htake
    cases htake
  · intro h
    have hle := View.length_text_le m (n + 1)
    rw [hfirst, if_neg (not_not.mpr h)] at htake
    rcases List.take_eq_nil_iff.mp htake.symm with hone | hnil
    · cases hone
    · exact hnil

/-- A copied line with its NUL. -/
theorem text_copyText (buf entry : View) {limit n : Nat} (h : limit < n) :
    View.text (Function.update (buf.copyText limit 0 entry).1 (buf.copyText limit 0 entry).2 0) n =
      buf.text limit := by
  have hle := View.length_text_le buf limit
  have hsame : Function.update (buf.copyText limit 0 entry).1 (buf.copyText limit 0 entry).2 0 =
      entry.splice 0 (buf.text limit ++ [0]) := by
    rw [View.copyText_eq, ← View.splice_append, Nat.zero_add]
    funext i
    simp only [Function.update_apply, View.splice, List.length_singleton]
    by_cases hi : i = (buf.text limit).length
    · rw [if_pos hi, if_pos (by omega), hi, Nat.sub_self]
      rfl
    · have hout : ¬ ((buf.text limit).length ≤ i ∧ i < (buf.text limit).length + 1) := by omega
      rw [if_neg hi, if_neg hout]
  rw [hsame]
  exact View.text_splice entry (View.zero_not_mem_text buf limit) (by omega)

theorem remembers_push {past : PastLines} {ls : List (List UInt8)} (h : Remembers past ls) (buf : View) :
    Remembers (historyPush past buf) (if buf.text 511 = [] then ls else buf.text 511 :: ls) := by
  have hnil : buf.text 511 = [] ↔ buf 0 = 0 := text_eq_nil_iff buf 510
  rw [historyPush]
  by_cases hempty : buf 0 = 0
  · rw [if_pos hempty, if_pos (hnil.mpr hempty)]
    exact h
  · rw [if_neg hempty, if_neg (mt hnil.mp hempty)]
    refine h.push ?_ fun i _ hne l hl => ?_
    · simp only [Function.update_self]
      exact text_copyText buf _ (by decide)
    · simp only [Function.update_of_ne hne]
      exact hl

theorem remembers_pushAll (past : List View) : Remembers (historyPushAll past) (lines past) := by
  induction past using List.reverseRecOn with
  | nil => exact latest_nil (by decide)
  | append_singleton past buf ih =>
    have hpush := remembers_push ih buf
    have hlines : lines (past ++ [buf]) = if buf.text 511 = [] then lines past else buf.text 511 ::
      lines past := by
      by_cases hnil : buf.text 511 = [] <;> simp [lines, hnil]
    rw [hlines, historyPushAll, List.foldl_concat]
    exact hpush

theorem count_pushAll (past : List View) : (historyPushAll past).count = (recent past).length := by
  rw [(remembers_pushAll past).count_eq, recent, List.length_take]

/-- The line at a place in the history, as far as the buffer has room. -/
theorem text_entry {past : List View} {place limit : Nat} (hpos : 0 < place)
    (hle : place ≤ (recent past).length)
    (hlimit : limit ≤ 512) :
    ((historyPushAll past).entries (back historySize (historyPushAll past).head place)).text limit =
      ((recent past).getD (place - 1) []).take limit := by
  obtain ⟨i, rfl⟩ := Nat.exists_eq_add_one.mpr hpos
  have hsize : i < historySize ∧ i < (lines past).length := by
    rw [recent, List.length_take] at hle
    omega
  have hline := (remembers_pushAll past).holds i hsize.2 hsize.1
  rw [View.text_add_of_le _ hlimit, hline, Nat.add_sub_cancel, List.getD_eq_getElem _ _ (by omega)]
  simp only [recent, List.getElem_take]

/-! The two editors side by side. -/

namespace Input

/-- The characters of the line. -/
def line (s : Input) : List UInt8 := s.buff.bytes 0 s.buffCount

/-- The line of `input` is the one of the line editor. -/
structure Shows (args : InputArgs) (past : List View) (s : Input) (ed : LineEditor) : Prop where
  reading : s.reading = !ed.entered
  line : s.line = ed.line
  line_le : ed.line.length ≤ args.size - 1
  line_nul : 0 ∉ ed.line
  place : s.browseIdx = ed.place
  place_le : ed.place ≤ (recent past).length
  typed : 0 < ed.place → s.savedInput.text (args.size - 1) = ed.typed
  kept : s.reading = true → s.past = historyPushAll past
  done : ed.entered = true → s.buff s.buffCount = 0 ∧ s.past = historyPush (historyPushAll past) s.buff

variable {args : InputArgs} {past : List View} {s : Input} {ed : LineEditor} {e : Scan}

theorem le_of_key_char {c : UInt8} (h : e.key = .char c) : 0x20 ≤ c := by
  rw [Scan.key] at h
  split_ifs at h
  cases h
  assumption

theorem length_line (s : Input) : s.line.length = s.buffCount := View.bytes_length ..

theorem line_recall (args : InputArgs) (s : Input) (src : View) :
    (s.recallLine args src).line = src.text (args.size - 1) := by
  rw [line, recallLine]
  simp only [View.copyText_eq]
  have hlength := View.length_text_le src (args.size - 1)
  refine List.ext_getElem (by simp) fun i hi hi' => ?_
  simp only [View.bytes, List.getElem_map, List.getElem_range, Nat.zero_add]
  rw [Function.update_of_ne (by omega), View.splice, if_pos ⟨Nat.zero_le i, by omega⟩, Nat.sub_zero,
    List.getD_eq_getElem _ _ hi']

/-- The line becomes the one of its place. -/
theorem Shows.recallLine (h : Shows args past s ed) (hreading : s.reading = true)
    (htyped : ed.place = 0 → s.savedInput.text (args.size - 1) = ed.typed) :
    Shows args past (s.recallLine args s.source) (ed.goTo (args.size - 1) (recent past) ed.place) := by
  have hentered : ed.entered = false := by
    have hread := h.reading
    rw [hreading] at hread
    simpa using hread
  have hsource : s.source.text (args.size - 1) =
      if ed.place = 0 then ed.typed else ((recent past).getD (ed.place - 1) []).take (args.size - 1) := by
    rw [source, h.place]
    by_cases hzero : ed.place = 0
    · rw [if_pos hzero, if_pos hzero]
      exact htyped hzero
    · have hle := args.size_le
      rw [if_neg hzero, if_neg hzero, h.kept hreading]
      exact text_entry (Nat.pos_of_ne_zero hzero) h.place_le (by omega)
  have hline := line_recall args s s.source
  rw [hsource] at hline
  refine ⟨h.reading, hline, ?_, ?_, h.place, h.place_le, h.typed, h.kept, fun hent => ?_⟩
  · rw [LineEditor.goTo, ← hsource]
    exact View.length_text_le _ _
  · rw [LineEditor.goTo, ← hsource]
    exact View.zero_not_mem_text _ _
  · rw [LineEditor.goTo, hentered] at hent
    cases hent

/-- The key down while the line is not one of the history, with another line in the copy. -/
def StaleDown (args : InputArgs) (s : Input) (e : Scan) : Prop :=
  s.reading = true ∧ e.key = .down ∧ s.browseIdx = 0 ∧ s.savedInput.text (args.size - 1) ≠ s.line

/-- A pass of the loop by its key. -/
def press (args : InputArgs) (s : Input) : LineKey → Input
  | .up => s.stepUp.browse args
  | .down => s.stepDown.browse args
  | .enter => s.enter
  | .erase => s.erase args
  | .char c => s.typeChar args c
  | .other => s

theorem step_key (hreading : s.reading = true) : s.step args e = s.press args e.key := by
  rw [step, if_neg (by rw [hreading]; exact Bool.noConfusion), Scan.key]
  split
  · rfl
  split
  · rfl
  split
  · rfl
  split
  · rfl
  split
  · rfl
  split
  · rfl
  · next hlow => rw [press, typeChar, if_neg fun h => hlow h.2]

/-- The step into the history keeps the line. -/
theorem Shows.keepLine (h : Shows args past s ed) :
    Shows args past (if s.browseIdx = 0 then s.keepLine else s)
      { ed with typed := if ed.place = 0 then ed.line else ed.typed } ∧
    (if s.browseIdx = 0 then s.keepLine else s).savedInput.text (args.size - 1) =
      if ed.place = 0 then ed.line else ed.typed := by
  by_cases hzero : s.browseIdx = 0
  · rw [if_pos hzero, if_pos (h.place ▸ hzero)]
    have hline : s.buff.bytes 0 s.buffCount = ed.line := h.line
    have hsaved : s.keepLine.savedInput.text (args.size - 1) = ed.line := by
      simp only [Input.keepLine, hline]
      exact View.text_splice _ h.line_nul h.line_le
    exact ⟨{ h with typed := fun _ => hsaved }, hsaved⟩
  · have hpos : 0 < ed.place := by
      rw [← h.place]
      exact Nat.pos_of_ne_zero hzero
    rw [if_neg hzero, if_neg hpos.ne']
    exact ⟨h, h.typed hpos⟩

theorem Shows.browseUp (h : Shows args past s ed) (hreading : s.reading = true) :
    Shows args past (s.stepUp.browse args) (ed.press (args.size - 1) (recent past) .up) := by
  obtain ⟨hkept, hsaved⟩ := h.keepLine
  have hread : (if s.browseIdx = 0 then s.keepLine else s).reading = true := by split <;> exact hreading
  rw [Input.browse, Input.stepUp]
  generalize (if s.browseIdx = 0 then s.keepLine else s) = t at hkept hsaved hread ⊢
  have hcount : t.past.count = (recent past).length := by rw [hkept.kept hread, count_pushAll]
  have hplace : t.browseIdx = ed.place := hkept.place
  have hle := h.place_le
  -- the last line of the history is the end of the way
  have hmoved : Shows args past
    (if t.browseIdx < t.past.count then { t with browseIdx := t.browseIdx + 1 } else t)
      { ed with
        typed := if ed.place = 0 then ed.line else ed.typed
        place := min (ed.place + 1) (recent past).length } := by
    split
    · exact { hkept with
        place := by simp only; omega
        place_le := Nat.min_le_right _ _
        typed := fun _ => hsaved }
    · exact { hkept with
        place := by simp only; omega
        place_le := Nat.min_le_right _ _
        typed := fun _ => hsaved }
  exact hmoved.recallLine (by split <;> exact hread) fun _ => by split <;> exact hsaved

theorem Shows.browseDown (h : Shows args past s ed) (hreading : s.reading = true)
    (hfresh : s.browseIdx = 0 → s.savedInput.text (args.size - 1) = s.line) :
    Shows args past (s.stepDown.browse args) (ed.press (args.size - 1) (recent past) .down) := by
  have hle := h.place_le
  rw [Input.browse, Input.stepDown, LineEditor.press]
  by_cases hzero : ed.place = 0
  · -- the copy takes the place of the line, which it is
    have hidx : s.browseIdx = 0 := h.place.trans hzero
    have hline : s.savedInput.text (args.size - 1) = ed.line := (hfresh hidx).trans h.line
    have htyped : Shows args past s { ed with typed := ed.line } :=
      { h with typed := fun hpos => absurd hzero hpos.ne' }
    have hback := htyped.recallLine hreading fun _ => hline
    rw [if_neg (by omega), if_pos hzero]
    have hsame : ({ ed with typed := ed.line } : LineEditor).goTo (args.size - 1) (recent past) ed.place =
        { ed with typed := ed.line } := by
      simp only [LineEditor.goTo, if_pos hzero]
    rw [hsame] at hback
    exact { hback with typed := fun hpos => absurd hzero hpos.ne' }
  · have hpos := Nat.pos_of_ne_zero hzero
    rw [if_pos (h.place ▸ hpos), if_neg hzero]
    have hmoved : Shows args past { s with browseIdx := s.browseIdx - 1 } { ed with place := ed.place - 1 } :=
      { h with
        place := by simp only; rw [h.place]
        place_le := by simp only; omega
        typed := fun _ => h.typed hpos }
    exact hmoved.recallLine hreading fun _ => h.typed hpos

/-- Enter puts a NUL behind the line. -/
theorem line_enter (s : Input) : s.enter.line = s.line ∧ s.enter.buff s.enter.buffCount = 0 := by
  refine ⟨View.bytes_congr fun i hi => ?_, Function.update_self ..⟩
  have hne : 0 + i ≠ s.buffCount := by
    have hlt : i < s.buffCount := hi
    omega
  exact Function.update_of_ne hne ..

theorem Shows.enter (h : Shows args past s ed) (hreading : s.reading = true) :
    Shows args past s.enter { ed with entered := true } :=
  { h with
    reading := rfl
    line := (line_enter s).1.trans h.line
    kept := fun hread => Bool.noConfusion hread
    done := fun _ => ⟨(line_enter s).2, congrArg (historyPush · _) (h.kept hreading)⟩ }

theorem Shows.erase (h : Shows args past s ed) (hentered : ed.entered = false) :
    Shows args past (s.erase args) { ed with line := ed.line.dropLast } := by
  have hnul : ed.entered = true → False := fun hent => by
    rw [hentered] at hent
    cases hent
  rw [Input.erase]
  split
  · next hpos =>
    refine { h with
      line := ?_
      line_le := ?_
      line_nul := fun hmem => h.line_nul (List.dropLast_subset _ hmem)
      done := fun hent => (hnul hent).elim }
    · obtain ⟨n, hn⟩ := Nat.exists_eq_add_one.mpr hpos
      have hlast : s.line = s.buff.bytes 0 n ++ s.buff.bytes n 1 := by
        rw [Input.line, hn, View.bytes_add, Nat.zero_add]
      rw [← h.line, hlast, List.dropLast_append_of_ne_nil (by simp [View.bytes])]
      simp only [Input.line, hn, Nat.add_sub_cancel]
      have hdrop : (s.buff.bytes n 1).dropLast = [] := by simp [View.bytes]
      rw [hdrop, List.append_nil]
      refine View.bytes_congr fun i hi => ?_
      rw [Nat.zero_add, Function.update_of_ne (by omega)]
    · rw [List.length_dropLast]
      exact (Nat.sub_le _ _).trans h.line_le
  · next hzero =>
    have hempty : ed.line = [] := by
      rw [← List.length_eq_zero_iff, ← h.line, length_line]
      omega
    rw [hempty, List.dropLast_nil, ← hempty]
    exact h

theorem Shows.typeChar (h : Shows args past s ed) (hentered : ed.entered = false) {c : UInt8} (hc : 0x20 ≤ c) :
    Shows args past (s.typeChar args c)
      (if ed.line.length < args.size - 1 then { ed with line := ed.line ++ [c] } else ed) := by
  have hcount : s.buffCount = ed.line.length := by rw [← h.line, length_line]
  rw [Input.typeChar]
  by_cases hroom : ed.line.length < args.size - 1
  · rw [if_pos ⟨hcount ▸ hroom, hc⟩, if_pos hroom]
    refine { h with line := ?_, line_le := ?_, line_nul := ?_, done := fun hent => ?_ }
    · have hold : View.bytes (Function.update s.buff s.buffCount c) 0 s.buffCount =
        s.buff.bytes 0 s.buffCount := by
        refine View.bytes_congr fun i hi => ?_
        rw [Nat.zero_add, Function.update_of_ne (by omega)]
      rw [← h.line]
      simp only [Input.line]
      rw [View.bytes_add, hold, Nat.zero_add]
      simp [View.bytes]
    · rw [List.length_append, List.length_singleton]
      exact hroom
    · intro hmem
      rcases List.mem_append.mp hmem with hold | hnew
      · exact h.line_nul hold
      · rw [← List.mem_singleton.mp hnew] at hc
        exact absurd hc (by decide)
    · rw [hentered] at hent
      cases hent
  · rw [if_neg fun hgo => hroom (hcount ▸ hgo.1), if_neg hroom]
    exact h

theorem Shows.step (h : Shows args past s ed) (hfresh : ¬ StaleDown args s e) :
    Shows args past (s.step args e) (ed.step (args.size - 1) (recent past) e.key) := by
  cases hread : s.reading with
  | false =>
    have hent : ed.entered = true := by simpa [hread] using h.reading.symm
    rw [Input.step, if_pos hread, LineEditor.step, if_pos hent]
    exact h
  | true =>
    have hent : ed.entered = false := by simpa [hread] using h.reading.symm
    rw [step_key hread, LineEditor.step, if_neg (by rw [hent]; exact Bool.noConfusion)]
    cases hkey : e.key with
    | up => exact h.browseUp hread
    | down =>
      refine h.browseDown hread fun hzero => ?_
      by_contra hne
      exact hfresh ⟨hread, hkey, hzero, hne⟩
    | enter => exact h.enter hread
    | erase => exact h.erase hent
    | char c =>
      exact h.typeChar hent (le_of_key_char hkey)
    | other => exact h

/-! Whole lines. -/

variable (args : InputArgs) (past : List View) (console : Console) (buff savedInput : View)

/-- `input` after these scancodes, with any bytes in its buffers to begin with. -/
def after (es : List Scan) : Input := (prompt console (historyPushAll past) buff savedInput).run args es

/-- The line editor after them. -/
def expected (es : List Scan) : LineEditor := LineEditor.run (args.size - 1) (recent past) (es.map Scan.key)

/-- The scancode of the Enter key. -/
def enterKey : Scan := ⟨0x1C, newline⟩

/-- The buffer returned at Enter holds the line of the line editor with a NUL behind it. -/
def Returned (es : List Scan) : Prop :=
  let s := after args past console buff savedInput (es ++ [enterKey])
  let line := (expected args past (es ++ [enterKey])).line
  s.reading = false ∧ s.buff.bytes 0 line.length = line ∧ s.buff line.length = 0 ∧ 0 ∉ line ∧
    line.length ≤ args.size - 1 ∧
    s.past = historyPushAll (past ++ [s.buff])

/-- Some key down copies a line that has nothing to do with the one on the screen. -/
def Stale (es : List Scan) : Prop :=
  ∃ pre e, pre ++ [e] <+: es ∧ StaleDown args (after args past console buff savedInput pre) e

variable {args past console buff savedInput} {es : List Scan}

theorem after_snoc (es : List Scan) (e : Scan) : after args past console buff savedInput (es ++ [e]) =
    (after args past console buff savedInput es).step args e := List.foldl_concat ..

theorem expected_snoc (es : List Scan) (e : Scan) : expected args past (es ++ [e]) =
    (expected args past es).step (args.size - 1) (recent past) e.key := by
  rw [expected, List.map_append]
  exact List.foldl_concat ..

theorem Stale.of_prefix {pre : List Scan} (h : Stale args past console buff savedInput pre)
    (hpre : pre <+: es) :
    Stale args past console buff savedInput es := by
  obtain ⟨pre', e, hpre', hstale⟩ := h
  exact ⟨pre', e, hpre'.trans hpre, hstale⟩

theorem stale_snoc (es : List Scan) (e : Scan) : Stale args past console buff savedInput (es ++ [e]) ↔
    Stale args past console buff savedInput es ∨
    StaleDown args (after args past console buff savedInput es) e := by
  constructor
  · rintro ⟨pre, e', hpre, hstale⟩
    rcases List.prefix_concat_iff.mp hpre with heq | hpre
    · obtain ⟨rfl, rfl⟩ := List.append_singleton_inj.mp heq
      exact .inr hstale
    · exact .inl ⟨pre, e', hpre, hstale⟩
  · rintro (h | h)
    · exact h.of_prefix (List.prefix_append es [e])
    · exact ⟨es, e, List.prefix_rfl, h⟩

theorem shows_after (h : ¬ Stale args past console buff savedInput es) :
    Shows args past (after args past console buff savedInput es) (expected args past es) := by
  induction es using List.reverseRecOn with
  | nil =>
    exact ⟨rfl, rfl, Nat.zero_le _, List.not_mem_nil, rfl, Nat.zero_le _, fun hpos =>
      absurd hpos (Nat.lt_irrefl 0),
      fun _ => rfl,
      fun hent => Bool.noConfusion hent⟩
  | append_singleton es e ih =>
    rw [after_snoc, expected_snoc]
    rw [stale_snoc, not_or] at h
    exact (ih h.1).step h.2

theorem key_enterKey : enterKey.key = .enter := by decide

theorem entered_enterKey (args : InputArgs) (past : List View) (es : List Scan) :
    (expected args past (es ++ [enterKey])).entered = true := by
  rw [expected_snoc, key_enterKey]
  exact (LineEditor.line_step_enter _ _ _).2

/-- A buffer holds one text only. -/
theorem text_unique {m : View} {t t' : List UInt8} (ht : m.bytes 0 t.length = t) (hend : m t.length = 0)
    (hnul : 0 ∉ t)
    (ht' : m.bytes 0 t'.length = t') (hend' : m t'.length = 0) (hnul' : 0 ∉ t') : t = t' := by
  have hlt : t.length < max t.length t'.length + 1 := by omega
  have hlt' : t'.length < max t.length t'.length + 1 := by omega
  exact (View.text_eq_of_bytes ht hnul (.inr ⟨hlt, hend⟩)).symm.trans (View.text_eq_of_bytes ht' hnul'
    (.inr ⟨hlt', hend'⟩))

theorem returned_of_not_stale (h : ¬ Stale args past console buff savedInput es) :
    Returned args past console buff savedInput es := by
  have hfresh : ¬ Stale args past console buff savedInput (es ++ [enterKey]) := by
    rw [stale_snoc, not_or]
    refine ⟨h, fun hstale => ?_⟩
    have hkey := hstale.2.1
    rw [key_enterKey] at hkey
    cases hkey
  have hshows := shows_after hfresh
  have hent := entered_enterKey args past es
  have hcount : (after args past console buff savedInput (es ++ [enterKey])).buffCount =
      (expected args past (es ++ [enterKey])).line.length := by
    rw [← hshows.line, length_line]
  obtain ⟨hnul, hpast⟩ := hshows.done hent
  rw [hcount] at hnul
  refine ⟨by rw [hshows.reading, hent]; rfl, ?_, hnul, hshows.line_nul, hshows.line_le, ?_⟩
  · rw [← hcount]
    exact hshows.line
  · rw [hpast, historyPushAll, historyPushAll, List.foldl_concat]

/-- Enter behind a stale key down returns the copy. -/
theorem not_returned_of_staleDown {e : Scan}
    (hshows : Shows args past (after args past console buff savedInput es) (expected args past es))
    (hstale : StaleDown args (after args past console buff savedInput es) e) :
      ¬ Returned args past console buff savedInput (es ++ [e]) := by
  obtain ⟨hread, hkey, hzero, hne⟩ := hstale
  rintro ⟨-, hbytes, hend, hnul, -⟩
  have hline : (expected args past (es ++ [e] ++ [enterKey])).line = (expected args past es).line := by
    rw [expected_snoc, key_enterKey, (LineEditor.line_step_enter _ _ _).1, expected_snoc, hkey,
      LineEditor.step_of_down (hshows.place ▸ hzero)]
  have hcopy : after args past console buff savedInput (es ++ [e]) =
      (after args past console buff savedInput es).recallLine args
        (after args past console buff savedInput es).savedInput := by
    rw [after_snoc, step_key hread, hkey, press, browse, stepDown, if_neg (by omega), source, if_pos hzero]
  have hreturn : (after args past console buff savedInput (es ++ [e] ++ [enterKey])) =
      (after args past console buff savedInput (es ++ [e])).enter := by
    rw [after_snoc, step_key (by rw [hcopy]; exact hread), key_enterKey, press]
  have htext := line_recall args (after args past console buff savedInput es)
    (after args past console buff savedInput es).savedInput
  rw [← hcopy] at htext
  rw [hline, hreturn] at hbytes hend
  rw [hline] at hnul
  refine hne ?_
  rw [← htext, hshows.line]
  have hlast := line_enter (after args past console buff savedInput (es ++ [e]))
  have hcount : (after args past console buff savedInput (es ++ [e])).enter.buffCount =
      (after args past console buff savedInput (es ++ [e])).line.length :=
    (length_line (after args past console buff savedInput (es ++ [e]))).symm
  rw [hcount] at hlast
  refine text_unique ?_ hlast.2 ?_ hbytes hend hnul
  · rw [← hcount]
    exact hlast.1
  · rw [htext]
    exact View.zero_not_mem_text _ _

/-- Enter after any of the keys returns the line of the line editor if and only if no key
down that is pressed outside of the history copies another line. -/
theorem returned_iff (args : InputArgs) (past : List View) (console : Console) (buff savedInput : View)
    (es : List Scan) :
    (∀ pre, pre <+: es → Returned args past console buff savedInput pre) ↔
      ¬ Stale args past console buff savedInput es := by
  constructor
  · induction es using List.reverseRecOn with
    | nil =>
      rintro - ⟨pre, e, hpre, -⟩
      cases pre <;> cases List.prefix_nil.mp hpre
    | append_singleton es e ih =>
      intro hall hstale
      have hfresh := ih fun pre hpre => hall pre (hpre.trans (List.prefix_append es [e]))
      have hdown := ((stale_snoc es e).mp hstale).resolve_left hfresh
      exact not_returned_of_staleDown (shows_after hfresh) hdown (hall _ List.prefix_rfl)
  · exact fun hfresh pre hpre => returned_of_not_stale fun hstale => hfresh (hstale.of_prefix hpre)

/-- The copy is only written by the key up. -/
theorem savedInput_press (args : InputArgs) (s : Input) {key : LineKey} (h : key ≠ .up) :
    (s.press args key).savedInput = s.savedInput := by
  cases key with
  | up => exact absurd rfl h
  | down =>
    rw [press, stepDown]
    split <;> rfl
  | enter | other => rfl
  | erase =>
    rw [press, erase]
    split <;> rfl
  | char c =>
    rw [press, typeChar]
    split <;> rfl

theorem savedInput_up (args : InputArgs) {s : Input} (h : s.browseIdx = 0) :
    (s.press args .up).savedInput = s.keepLine.savedInput := by
  rw [press, stepUp, if_pos h]
  split <;> rfl

/-- The key up without any history, and a letter. -/
def upLetter : List Scan := [⟨keyUp, 0⟩, ⟨0x1E, 97⟩]

/-- Then the key down loses the letter. -/
theorem letter_lost :
    ¬ Returned ⟨64, 7, by decide,
      by decide⟩ [] (.cleared 80 25 7) (fun _ => 0) (fun _ => 0) (upLetter ++ [⟨keyDown, 0⟩]) := by
  have hfresh : ¬ Stale ⟨64, 7, by decide, by decide⟩ [] (.cleared 80 25 7) (fun _ => 0)
    (fun _ => 0) upLetter := by
    have hkeys : ∀ e ∈ upLetter, e.key ≠ .down := by decide
    rintro ⟨pre, e, hpre, -, hkey, -⟩
    exact hkeys e (hpre.subset (by simp)) hkey
  have hshows := shows_after hfresh
  refine not_returned_of_staleDown hshows ⟨hshows.reading.trans (by decide), by decide,
    hshows.place.trans (by decide), ?_⟩
  have hsaved : (after ⟨64, 7, by decide,
    by decide⟩ [] (.cleared 80 25 7) (fun _ => 0) (fun _ => 0) upLetter).savedInput =
      (prompt (.cleared 80 25 7) .none (fun _ => 0) (fun _ => 0)).keepLine.savedInput := by
    have hup : (after ⟨64, 7, by decide,
      by decide⟩ [] (.cleared 80 25 7) (fun _ => 0) (fun _ => 0) [⟨keyUp, 0⟩]).reading = true :=
      (shows_after fun h => hfresh (h.of_prefix ⟨[⟨0x1E, 97⟩], rfl⟩)).reading.trans (by decide)
    rw [show upLetter = [⟨keyUp, 0⟩] ++ [⟨0x1E, 97⟩] from rfl, after_snoc, step_key hup,
      savedInput_press _ _ (by decide)]
    exact savedInput_up _ rfl
  rw [hsaved, hshows.line]
  decide

end Input
end GeckoOS.Terminal
