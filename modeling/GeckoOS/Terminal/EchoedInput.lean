import GeckoOS.Terminal.Accesses
import GeckoOS.Terminal.LineEditor
import GeckoOS.Terminal.Redraw

/-! Where `input` echoes a line in the scrollback, and which cells it erases. -/
namespace GeckoOS.Terminal
open Lib

/-! The cursor as a number: the lines one after the other. -/

/-- The cell with a number. -/
def cellOf (cols p : Nat) : Cell := ((p / cols : Nat), p % cols)

namespace Console

/-- The cursor is on the cell with this number. -/
def At (s : Console) (p : Nat) : Prop := (s.totalLines, s.cursorX) = cellOf s.fbCols p

variable {s : Console} {fb : Framebuffer} {c color : UInt8} {p : Nat}

theorem at_iff (hpos : 0 < s.fbCols) : s.At p ↔
    ∃ n : Nat, s.totalLines = n ∧ s.cursorX < s.fbCols ∧ s.cursorX + s.fbCols * n = p := by
  rw [At, cellOf, Prod.mk.injEq]
  constructor
  · rintro ⟨hline, hcol⟩
    refine ⟨p / s.fbCols, hline, hcol ▸ Nat.mod_lt p hpos, ?_⟩
    rw [hcol]
    exact Nat.mod_add_div p s.fbCols
  · rintro ⟨n, hline, hlt, hp⟩
    obtain ⟨hdiv, hmod⟩ := (Nat.div_mod_unique hpos).mpr ⟨hp, hlt⟩
    exact ⟨by rw [hline, hdiv], hmod.symm⟩

theorem at_of {t : Console} {n x : Nat} (hcols : t.fbCols = s.fbCols) (hline : t.totalLines = n)
    (hcursor : t.cursorX = x)
    (hlt : x < s.fbCols) (hp : x + s.fbCols * n = p) : t.At p := by
  rw [← hcols] at hlt hp
  exact (at_iff (Nat.zero_lt_of_lt hlt)).mpr ⟨n, hline, hcursor ▸ hlt, hcursor ▸ hp⟩

theorem at_congr {t : Console} (hcols : t.fbCols = s.fbCols) (hlines : t.totalLines = s.totalLines)
    (hcursor : t.cursorX = s.cursorX) :
    t.At p ↔ s.At p := by
  rw [At, At, hcols, hlines, hcursor]

/-- The screen does not matter. -/
theorem refresh_at (s : Console) (c : UInt8) : (s.refresh c).At p ↔ s.At p := by
  have hsame : (s.refresh c).fbCols = s.fbCols ∧ (s.refresh c).totalLines = s.totalLines ∧
    (s.refresh c).cursorX = s.cursorX := by
    rw [refresh]
    split
    · exact ⟨rfl, rfl, rfl⟩
    · rw [drawLast_eq]
      exact ⟨rfl, rfl, rfl⟩
  exact at_congr hsame.1 hsame.2.1 hsame.2.2

/-- A character that takes a cell of its own. -/
def Printed (c : UInt8) : Prop := c ≠ 0 ∧ c ≠ newline ∧ c ≠ backspace ∧ c ≠ tab

theorem At.advance (h : s.At p) (hsized : fb.Sized s) (hc : Printed c) (hroom : p + 1 < 1000 * fb.cols) :
    (s.putchar c color).At (p + 1) := by
  obtain ⟨hzero, hn, hb, ht⟩ := hc
  have hcols := hsized.cols_eq
  have hpos : 0 < s.fbCols := by
    rw [hcols]
    exact fb.cols_pos
  obtain ⟨n, hline, hlt, hp⟩ := (at_iff hpos).mp h
  obtain ⟨history, hstore⟩ : ∃ history, s.store c color = { s with history, cursorX := s.cursorX + 1 } :=
    ⟨_, by rw [store, if_neg hn, if_neg hb]⟩
  rw [putchar, if_neg ht, putPlain, if_neg hzero, refresh_at, hstore, wrap]
  by_cases hend : s.cursorX + 1 = s.fbCols
  · -- the next line is still one of the history
    have hnext : p + 1 = s.fbCols * (n + 1) := by
      rw [Nat.mul_succ]
      omega
    have hlines : n + 1 < 1000 := by
      rw [hnext, hcols, Nat.mul_comm] at hroom
      exact Nat.lt_of_mul_lt_mul_right hroom
    have hmore : ¬ scrollbackLines ≤ s.totalLines + 1 := by
      rw [scrollbackLines]
      omega
    rw [if_pos (by simp only; omega), nextLine, if_neg hmore]
    exact at_of (s := s) (n := n + 1) (x := 0) rfl (by simp only; omega) rfl hpos (by omega)
  · rw [if_neg (by simp only; omega)]
    exact at_of (s := s) (x := s.cursorX + 1) rfl hline rfl (by omega) (by omega)

theorem At.retreat (h : s.At (p + 1)) (hsized : fb.Sized s) (hwidth : fb.cols ≤ vgaTextWidth) :
    (s.putchar backspace color).At p := by
  have hcols := hsized.cols_eq
  have hpos : 0 < s.fbCols := by
    rw [hcols]
    exact fb.cols_pos
  obtain ⟨n, hline, hlt, hp⟩ := (at_iff hpos).mp h
  have hback : s.stepBack.At p ∧ s.stepBack.cursorX < s.fbCols ∧ s.stepBack.fbCols = s.fbCols := by
    rw [stepBack]
    by_cases hx : 0 < s.cursorX
    · rw [if_pos hx]
      exact ⟨at_of (s := s) (x := s.cursorX - 1) rfl hline rfl (by omega) (by omega), by simp only; omega, rfl⟩
    · -- the last column of the line above
      have hzero : s.cursorX = 0 := by omega
      obtain ⟨m, rfl⟩ : ∃ m, n = m + 1 := by
        refine Nat.exists_eq_add_one.mpr (Nat.pos_of_ne_zero fun hn => ?_)
        rw [hzero, hn] at hp
        omega
      have hlast : (if s.fbCols < vgaTextWidth then s.fbCols else vgaTextWidth) - 1 = s.fbCols - 1 := by
        split <;> omega
      rw [Nat.mul_succ] at hp
      rw [if_neg hx, if_pos (by omega), hlast]
      exact ⟨at_of (s := s) (n := m) (x := s.fbCols - 1) rfl (by simp only; omega) rfl (by omega) (by omega),
        by simp only; omega, rfl⟩
  rw [putchar, if_neg (by decide), putPlain, if_neg (by decide), refresh_at, store, if_neg (by decide),
    if_pos rfl, wrap]
  rw [if_neg (by simp only; omega)]
  exact (at_congr rfl rfl rfl).mp hback.1

/-- The cells at which the characters of a text are echoed. -/
def echoCells (color : UInt8) : Console → List UInt8 → List Cell
  | _, [] => []
  | s, c :: cs => (s.totalLines, s.cursorX) :: echoCells color (s.putchar c color) cs

/-- A text in a row of cells, the last of which may be the last one of the history. -/
theorem At.write {text : List UInt8} (h : s.At p) (hsized : fb.Sized s) (htext : ∀ c ∈ text, Printed c)
    (hroom : p + text.length ≤ 1000 * fb.cols) :
    echoCells color s text = (List.range' p text.length).map (cellOf fb.cols) ∧ fb.Sized (s.write text color) ∧
      (p + text.length < 1000 * fb.cols → (s.write text color).At (p + text.length)) := by
  induction text generalizing s p with
  | nil => exact ⟨rfl, hsized, fun _ => h⟩
  | cons c text ih =>
    rw [List.forall_mem_cons] at htext
    rw [List.length_cons] at hroom ⊢
    have hcell : (s.totalLines, s.cursorX) = cellOf fb.cols p := by
      rw [← hsized.cols_eq]
      exact h
    have hnext := hsized.putchar c color
    rw [echoCells, List.range'_succ, List.map_cons, hcell, Console.write, List.foldl_cons]
    by_cases hend : text = []
    · subst hend
      exact ⟨rfl, hnext, fun hlt => h.advance hsized htext.1 hlt⟩
    · have hmore : 0 < text.length := List.length_pos_iff.mpr hend
      obtain ⟨hcells, hsized', hat⟩ := ih (h.advance hsized htext.1 (by omega)) hnext htext.2 (by omega)
      refine ⟨by rw [hcells], hsized', fun hlt => ?_⟩
      rw [← Nat.add_assoc, Nat.add_right_comm]
      exact hat (by omega)

end Console

namespace Input

/-- The cells to which the line is echoed, behind another key. -/
def echoed (args : InputArgs) (s : Input) (cells : List Cell) : LineKey → List Cell
  | .up => Console.echoCells args.color (s.stepUp.eraseInput args) (s.stepUp.source.text (args.size - 1))
  | .down => Console.echoCells args.color (s.stepDown.eraseInput args) (s.stepDown.source.text (args.size - 1))
  | .erase => cells.dropLast
  | .char _ =>
    if s.buffCount < args.size - 1 then cells ++ [(s.console.totalLines, s.console.cursorX)] else cells
  | .enter | .other => cells

/-- The cells to which the line is echoed after these scancodes. -/
def echoedFrom (args : InputArgs) : Input → List Cell → List Scan → List Cell
  | _, cells, [] => cells
  | s, cells, e :: es =>
    echoedFrom args (s.step args e) (if s.reading then s.echoed args cells e.key else cells) es

variable (args : InputArgs) (fb : Framebuffer)

/-- The number of the cell at the prompt. -/
def start (s : Input) : Nat := s.startLine.toNat * fb.cols + s.startX

/-- The line to recall has a cell for each of its characters. -/
def RecallFits (s : Input) : Prop :=
  (∀ c ∈ s.source.text (args.size - 1), c ≠ newline ∧ c ≠ backspace ∧ c ≠ tab) ∧
    s.start fb + (s.source.text (args.size - 1)).length ≤ 1000 * fb.cols

/-- Nothing is echoed, nor erased by backspace, behind the last cell of the history. -/
def Fits (s : Input) : LineKey → Prop
  | .up => s.stepUp.RecallFits args fb
  | .down => s.stepDown.RecallFits args fb
  | .erase => 0 < s.buffCount → s.start fb + s.buffCount < 1000 * fb.cols
  | .char _ => s.buffCount < args.size - 1 → s.start fb + s.buffCount < 1000 * fb.cols
  | .enter | .other => True

/-- The line stands in the cells from the prompt on. -/
structure Echoing (s : Input) (cells : List Cell) : Prop where
  sized : fb.Sized s.console
  prompt_eq : (s.startLine, s.startX) = cellOf fb.cols (s.start fb)
  prompt_lt : s.start fb < 1000 * fb.cols
  cells_eq : cells = (List.range' (s.start fb) s.buffCount).map (cellOf fb.cols)
  room : s.start fb + s.buffCount ≤ 1000 * fb.cols
  cursor : s.start fb + s.buffCount < 1000 * fb.cols → s.console.At (s.start fb + s.buffCount)

variable {args fb} {s : Input} {cells : List Cell}

theorem Echoing.eraseCells (h : Echoing fb s cells) (hwidth : fb.cols ≤ vgaTextWidth) :
    s.eraseCells = cells := by
  have hpos : 0 < fb.cols := fb.cols_pos
  obtain ⟨hline, hcol⟩ := Prod.mk.inj h.prompt_eq
  have hstart := Nat.div_add_mod (s.start fb) fb.cols
  rw [h.cells_eq, Input.eraseCells, h.sized.cols_eq, List.range'_eq_map_range, List.map_map,
    List.filter_eq_self.mpr]
  · refine List.map_congr_left fun k _ => ?_
    have hsum : s.start fb + k = s.startX + k + fb.cols * (s.start fb / fb.cols) := by omega
    simp only [Function.comp_apply, cellOf, hsum, Nat.add_mul_div_left _ _ hpos,
      Nat.add_mul_mod_self_left, hline]
    rw [Int.natCast_add, Int.add_comm]
  · intro cell hcell
    obtain ⟨k, -, rfl⟩ := List.mem_map.mp hcell
    have hlt := Nat.mod_lt (s.startX + k) hpos
    simp only [decide_eq_true_eq]
    omega

theorem Echoing.inside (h : Echoing fb s cells) (hwidth : fb.cols ≤ vgaTextWidth) :
    ∀ cell ∈ cells, cell.Inside := by
  intro cell hcell
  rw [h.cells_eq] at hcell
  obtain ⟨p, hp, rfl⟩ := List.mem_map.mp hcell
  have hroom := h.room
  have hlt : p < fb.cols * 1000 := by
    have := List.mem_range'_1.mp hp
    omega
  have hline := Nat.div_lt_of_lt_mul hlt
  have hcol := Nat.mod_lt p fb.cols_pos
  refine ⟨Int.natCast_nonneg _, ?_, ?_⟩
  · simp only [cellOf, scrollbackLines]
    omega
  · simp only [cellOf]
    exact hcol.trans_le hwidth

theorem Echoing.erase (h : Echoing fb s cells) (hwidth : fb.cols ≤ vgaTextWidth)
    (hfits : Fits args fb s .erase) :
    Echoing fb (s.erase args) cells.dropLast := by
  have hcells := h.cells_eq
  rw [Input.erase]
  by_cases hpos : 0 < s.buffCount
  · obtain ⟨n, hn⟩ := Nat.exists_eq_add_one.mpr hpos
    have hlt := hfits hpos
    have hat := h.cursor hlt
    rw [hn, ← Nat.add_assoc] at hat
    rw [hn, List.range'_concat, List.map_append, List.map_singleton] at hcells
    rw [if_pos hpos]
    refine ⟨h.sized.putchar backspace args.color, h.prompt_eq, h.prompt_lt, ?_, ?_, fun _ => ?_⟩
    · simp only [hn, Nat.add_sub_cancel]
      rw [hcells, List.dropLast_concat]
      rfl
    · have hroom := h.room
      exact (Nat.add_le_add_left (Nat.sub_le _ _) _).trans hroom
    · simp only [hn, Nat.add_sub_cancel]
      exact hat.retreat h.sized hwidth
  · have hnil : cells = [] := by rw [hcells, Nat.eq_zero_of_not_pos hpos, List.range'_zero, List.map_nil]
    rw [if_neg hpos, hnil, List.dropLast_nil, ← hnil]
    exact h

theorem Echoing.typeChar (h : Echoing fb s cells) {c : UInt8} (hc : 0x20 ≤ c)
    (hfits : Fits args fb s (.char c)) :
    Echoing fb (s.typeChar args c) (s.echoed args cells (.char c)) := by
  rw [Input.typeChar, echoed]
  by_cases hroom : s.buffCount < args.size - 1
  · have hlt := hfits hroom
    have hat := h.cursor hlt
    have hprinted : Console.Printed c := by
      refine ⟨?_, ?_, ?_, ?_⟩ <;> rintro rfl <;> exact absurd hc (by decide)
    rw [if_pos ⟨hroom, hc⟩, if_pos hroom]
    refine ⟨h.sized.putchar c args.color, h.prompt_eq, h.prompt_lt, ?_, ?_, fun hnext => ?_⟩
    · have hcell : (s.console.totalLines, s.console.cursorX) = cellOf fb.cols (s.start fb + s.buffCount) := by
        rw [← h.sized.cols_eq]
        exact hat
      rw [h.cells_eq, hcell, List.range'_concat, List.map_append, List.map_singleton, Nat.one_mul]
      rfl
    · exact hlt
    · exact hat.advance h.sized hprinted hnext
  · rw [if_neg fun hgo => hroom hgo.1, if_neg hroom]
    exact h

/-- The cursor is back at the prompt. -/
theorem Echoing.eraseInput (h : Echoing fb s cells) :
    fb.Sized (s.eraseInput args) ∧ (s.eraseInput args).At (s.start fb) := by
  have hpos : 0 < fb.cols := fb.cols_pos
  obtain ⟨hline, hcol⟩ := Prod.mk.inj h.prompt_eq
  have hlt : s.start fb / fb.cols < 1000 := Nat.div_lt_of_lt_mul (by rw [Nat.mul_comm]; exact h.prompt_lt)
  refine ⟨⟨⟨?_, ?_, h.sized.top_nonneg, ?_⟩, h.sized.cols_eq, h.sized.rows_eq⟩, ?_⟩
  · rw [Input.eraseInput, Console.renderViewport, hline]
    exact Int.natCast_nonneg _
  · rw [Input.eraseInput, Console.renderViewport, hline]
    exact Int.ofNat_lt.mpr hlt
  · rw [Input.eraseInput, Console.renderViewport, hcol]
    exact Nat.mod_lt _ hpos
  · rw [Console.At, Input.eraseInput, Console.renderViewport, h.sized.cols_eq]
    exact h.prompt_eq

theorem Echoing.browse (h : Echoing fb s cells) (hfits : s.RecallFits args fb) :
    Echoing fb (s.browse args)
      (Console.echoCells args.color (s.eraseInput args) (s.source.text (args.size - 1))) := by
  obtain ⟨hsized, hat⟩ : fb.Sized (s.eraseInput args) ∧ (s.eraseInput args).At (s.start fb) := h.eraseInput
  have hprinted : ∀ c ∈ s.source.text (args.size - 1), Console.Printed c := fun c hc =>
    ⟨fun hzero => View.zero_not_mem_text _ _ (hzero ▸ hc), hfits.1 c hc⟩
  obtain ⟨hcells, hsized', hat'⟩ : Console.echoCells args.color (s.eraseInput args)
    (s.source.text (args.size - 1)) = _ ∧
      fb.Sized ((s.eraseInput args).write (s.source.text (args.size - 1)) args.color) ∧ _ :=
    hat.write hsized hprinted hfits.2
  have hconsole : (s.browse args).console = (s.eraseInput args).write
    (s.source.text (args.size - 1)) args.color := by
    rw [Input.browse, recallLine]
    simp only [View.copyText_eq, View.bytes_text]
  have hcount : (s.browse args).buffCount = (s.source.text (args.size - 1)).length := by
    rw [Input.browse, recallLine]
    simp only [View.copyText_eq]
  have hstart : (s.browse args).start fb = s.start fb := rfl
  refine ⟨hconsole ▸ hsized', h.prompt_eq, h.prompt_lt, ?_, ?_, fun hlt => ?_⟩
  · rw [hcells, hcount, hstart]
  · rw [hcount, hstart]
    exact hfits.2
  · rw [hcount, hstart] at hlt ⊢
    rw [hconsole]
    exact hat' hlt

/-- The steps in the history leave the line and the screen. -/
theorem Echoing.moved (h : Echoing fb s cells) : Echoing fb s.stepUp cells ∧ Echoing fb s.stepDown cells := by
  have hkept : Echoing fb (if s.browseIdx = 0 then s.keepLine else s) cells := by
    split
    · exact ⟨h.sized, h.prompt_eq, h.prompt_lt, h.cells_eq, h.room, h.cursor⟩
    · exact h
  refine ⟨?_, ?_⟩
  · rw [stepUp]
    generalize (if s.browseIdx = 0 then s.keepLine else s) = t at hkept ⊢
    split
    · exact ⟨hkept.sized, hkept.prompt_eq, hkept.prompt_lt, hkept.cells_eq, hkept.room, hkept.cursor⟩
    · exact hkept
  · rw [stepDown]
    split
    · exact ⟨h.sized, h.prompt_eq, h.prompt_lt, h.cells_eq, h.room, h.cursor⟩
    · exact h

theorem Echoing.step (h : Echoing fb s cells) (hwidth : fb.cols ≤ vgaTextWidth) {e : Scan}
    (hfits : s.reading = true → Fits args fb s e.key) :
    Echoing fb (s.step args e) (if s.reading then s.echoed args cells e.key else cells) := by
  cases hread : s.reading with
  | false =>
    rw [Input.step, if_pos hread]
    exact h
  | true =>
    have hfits := hfits hread
    rw [step_key hread, if_pos rfl]
    cases hkey : e.key with
    | up =>
      rw [hkey] at hfits
      exact h.moved.1.browse hfits
    | down =>
      rw [hkey] at hfits
      exact h.moved.2.browse hfits
    | enter => exact ⟨h.sized, h.prompt_eq, h.prompt_lt, h.cells_eq, h.room, h.cursor⟩
    | erase => exact h.erase hwidth (hkey ▸ hfits)
    | char c => exact h.typeChar (le_of_key_char hkey) (hkey ▸ hfits)
    | other => exact h

/-! Whole lines. -/

variable {past : List View} {console : Console} {buff savedInput : View} {es : List Scan}

theorem echoedFrom_snoc (args : InputArgs) (s : Input) (cells : List Cell) (es : List Scan) (e : Scan) :
    echoedFrom args s cells (es ++ [e]) =
      if (s.run args es).reading then (s.run args es).echoed args
        (echoedFrom args s cells es) e.key else echoedFrom args s cells es := by
  induction es generalizing s cells with
  | nil => rfl
  | cons e' es ih => exact ih _ _

/-- The cells to which the line is echoed. -/
def echoedAfter (args : InputArgs) (past : List View) (console : Console) (buff savedInput : View)
    (es : List Scan) : List Cell :=
  echoedFrom args (prompt console (historyPushAll past) buff savedInput) [] es

/-- At each step in the history the cells of the line are erased, and they belong to the scrollback. -/
def ErasesEcho (args : InputArgs) (past : List View) (console : Console) (buff savedInput : View)
    (es : List Scan) :
    Prop :=
  ∀ pre e, pre ++ [e] <+: es → (after args past console buff savedInput pre).reading = true →
  e.key = .up ∨ e.key = .down →
    (∀ cell ∈ (after args past console buff savedInput pre).eraseCells, Cell.Inside cell) ∧
      (after args past console buff savedInput pre).eraseCells =
        echoedAfter args past console buff savedInput pre

/-- Each key that is read finds room in the scrollback. -/
def FitsAll (args : InputArgs) (fb : Framebuffer) (past : List View) (console : Console)
    (buff savedInput : View)
    (es : List Scan) : Prop :=
  ∀ pre e, pre ++ [e] <+: es → (after args past console buff savedInput pre).reading = true →
    Fits args fb (after args past console buff savedInput pre) e.key

theorem FitsAll.of_prefix {pre : List Scan} (h : FitsAll args fb past console buff savedInput es)
    (hpre : pre <+: es) :
    FitsAll args fb past console buff savedInput pre := fun pre' e hpre' => h pre' e (hpre'.trans hpre)

theorem fitsAll_nil : FitsAll args fb past console buff savedInput [] := by
  intro pre e hpre
  cases pre <;> cases List.prefix_nil.mp hpre

theorem FitsAll.snoc {e : Scan} (h : FitsAll args fb past console buff savedInput es)
    (he : (after args past console buff savedInput es).reading = true →
      Fits args fb (after args past console buff savedInput es) e.key) :
    FitsAll args fb past console buff savedInput (es ++ [e]) := by
  intro pre e' hpre
  rcases List.prefix_concat_iff.mp hpre with heq | hpre
  · obtain ⟨rfl, rfl⟩ := List.append_singleton_inj.mp heq
    exact he
  · exact h pre e' hpre

theorem echoing_after (hwidth : fb.cols ≤ vgaTextWidth) (hsized : fb.Sized console)
    (hfits : FitsAll args fb past console buff savedInput es) :
    Echoing fb (after args past console buff savedInput es)
      (echoedAfter args past console buff savedInput es) := by
  induction es using List.reverseRecOn with
  | nil =>
    obtain ⟨n, hn⟩ := Int.eq_ofNat_of_zero_le hsized.lines_nonneg
    have hlines := hsized.lines_lt
    have hcursor := hsized.cursor_lt
    have hstart : (prompt console (historyPushAll past) buff savedInput).start fb =
      console.cursorX + fb.cols * n := by
      simp only [start, prompt, hn, Int.toNat_natCast]
      rw [Nat.mul_comm, Nat.add_comm]
    have hlt : console.cursorX + fb.cols * n < 1000 * fb.cols := by
      have hle : fb.cols * (n + 1) ≤ fb.cols * 1000 :=
        Nat.mul_le_mul_left _ (by rw [scrollbackLines] at hlines; omega)
      rw [Nat.mul_succ] at hle
      omega
    have hprompt : (console.totalLines, console.cursorX) = cellOf fb.cols (console.cursorX + fb.cols * n) := by
      have hpos : 0 < fb.cols := fb.cols_pos
      obtain ⟨hdiv, hmod⟩ := (Nat.div_mod_unique hpos).mpr ⟨rfl, hcursor⟩
      rw [cellOf, hdiv, hmod, hn]
    refine ⟨hsized, ?_, ?_, rfl, ?_, fun _ => ?_⟩
    · rw [after, run, List.foldl_nil, hstart]
      exact hprompt
    · rw [after, run, List.foldl_nil, hstart]
      exact hlt
    · rw [after, run, List.foldl_nil, hstart]
      exact hlt.le
    · rw [after, run, List.foldl_nil, hstart, Console.At]
      exact hsized.cols_eq ▸ hprompt
  | append_singleton es e ih =>
    rw [after_snoc, echoedAfter, echoedFrom_snoc]
    exact (ih (hfits.of_prefix (List.prefix_append es [e]))).step hwidth (hfits es e List.prefix_rfl)

/-- What the keys up and down erase is the line, in a scrollback that has room for it. -/
theorem erases_echo (hwidth : fb.cols ≤ vgaTextWidth) (hsized : fb.Sized console)
    (hfits : FitsAll args fb past console buff savedInput es) :
    ErasesEcho args past console buff savedInput es := by
  intro pre e hpre _ _
  have hecho := echoing_after hwidth hsized (hfits.of_prefix ((List.prefix_append pre [e]).trans hpre))
  refine ⟨?_, hecho.eraseCells hwidth⟩
  rw [hecho.eraseCells hwidth]
  exact hecho.inside hwidth

/-- Two columns and one row. -/
def narrow : Framebuffer := ⟨16, 16, by decide, by decide⟩

/-- The prompt stands in front of the last cell of the history. -/
def lastCell : Console := { Console.cleared 2 1 7 with cursorX := 1, totalLines := 999, viewportTop := 999 }

theorem sized_lastCell : narrow.Sized lastCell where
  lines_nonneg := by decide
  lines_lt := by decide
  top_nonneg := by decide
  cursor_lt := by decide
  cols_eq := by decide
  rows_eq := by decide

/-- A letter fits into the last cell, and is recalled by the key up. -/
theorem erases_echo_lastCell :
    ErasesEcho ⟨64, 7, by decide, by decide⟩ [] lastCell (fun _ => 0) (fun _ => 0)
      [⟨0x1E, 97⟩, ⟨keyUp, 0⟩] := by
  have hletter : FitsAll ⟨64, 7, by decide,
    by decide⟩ narrow [] lastCell (fun _ => 0) (fun _ => 0) ([] ++ [⟨0x1E, 97⟩]) :=
    fitsAll_nil.snoc fun _ (_ : 0 < 63) => by decide
  exact erases_echo (by decide) sized_lastCell (hletter.snoc fun _ => ⟨by decide +kernel, by decide +kernel⟩)

/-- A second letter is echoed to the line of the first, and erased behind the history. -/
theorem second_letter_strays :
    ¬ ErasesEcho ⟨64, 7, by decide, by decide⟩ [] lastCell (fun _ => 0) (fun _ => 0) [⟨0x1E, 97⟩, ⟨0x30, 98⟩,
      ⟨keyUp, 0⟩] := by
  intro h
  have hinside := (h [⟨0x1E, 97⟩, ⟨0x30, 98⟩] ⟨keyUp, 0⟩ List.prefix_rfl rfl (.inl (by decide))).1
    (1000, 0) (by decide)
  exact absurd hinside.2.1 (by decide)

end Input
end GeckoOS.Terminal
