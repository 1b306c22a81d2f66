import GeckoOS.Terminal.Console
import Mathlib.Data.List.TakeWhile

/-! The cells of `console_history` that the terminal touches. The columns come from
the framebuffer, the array has a width of its own. -/
namespace GeckoOS.Terminal

def fontWidth : Nat := 8
def fontHeight : Nat := 16

/-- What the boot loader reports, with room for a character. -/
structure Framebuffer where
  width : UInt32
  height : UInt32
  cols_pos : 1 ≤ width.toNat / fontWidth
  rows_pos : 1 ≤ height.toNat / fontHeight

def Framebuffer.cols (fb : Framebuffer) : Nat := fb.width.toNat / fontWidth
def Framebuffer.rows (fb : Framebuffer) : Nat := fb.height.toNat / fontHeight

/-- A line and a column. -/
abbrev Cell := Int × Nat

/-- The cell belongs to the array. -/
def Cell.Inside (cell : Cell) : Prop := 0 ≤ cell.1 ∧ cell.1 < scrollbackLines ∧ cell.2 < vgaTextWidth

namespace Console
variable (s : Console) (fb : Framebuffer)

/-- The static variables before any call. -/
def booted : Console := ⟨0, 0, fun _ _ => ⟨0, 0⟩, fun _ _ => 0, 0, 0, 0, true⟩

def fbUpdateDims : Console := { s with fbCols := fb.cols, fbRows := fb.rows }

/-- The dimensions are read at the first character. -/
def sized : Console := if s.fbCols = 0 then s.fbUpdateDims fb else s

def scrollUp : Console :=
  let s : Console :=
    { s with followOutput := if s.totalLines - s.fbRows + 1 ≤ s.viewportTop then false else s.followOutput }
  if s.viewportTop = 0 then s
  else if 0 ≤ s.viewportTop then { s with viewportTop := s.viewportTop - 1 }
  else s

def scrollDown : Console :=
  let s : Console :=
    { s with followOutput := if s.totalLines - s.fbRows + 1 ≤ s.viewportTop then true else s.followOutput }
  if s.viewportTop + s.fbRows ≤ s.totalLines then { s with viewportTop := s.viewportTop + 1 } else s

def terminalClear (color : UInt8) : Console :=
  { s with
    history := fun l k => if 0 ≤ l ∧ l < scrollbackLines ∧ k < vgaTextWidth then ⟨space,
      color⟩ else s.history l k
    screen := fun _ _ => space
    totalLines := 0
    cursorX := 0
    viewportTop := 0 }

/-! The cells that each part reads or writes. -/

/-- The rows are drawn up to the end of the history. -/
def renderCells : List Cell :=
  ((List.range s.fbRows).takeWhile fun y : Nat => s.viewportTop + y < scrollbackLines).flatMap fun y : Nat =>
    (List.range s.fbCols).map fun x => (s.viewportTop + y, x)

def storeCells (c : UInt8) : List Cell :=
  if c = newline then (List.range' s.cursorX (min s.fbCols vgaTextWidth - s.cursorX)).map fun k =>
    (s.totalLines, k)
  else if c = backspace then [(s.stepBack.totalLines, s.stepBack.cursorX)]
  else if s.cursorX < vgaTextWidth then [(s.totalLines, s.cursorX)]
  else []

def refreshCells : List Cell :=
  if s.followOutput ∧ s.newTop ≠ s.viewportTop then
    ({ s with viewportTop := s.newTop } : Console).renderCells
  else []

def putPlainCells (c color : UInt8) : List Cell :=
  if c = 0 then [] else s.storeCells c ++ ((s.store c color).wrap).refreshCells

/-- Characters one after the other. -/
def plainCells (color : UInt8) : Console → List UInt8 → List Cell
  | _, [] => []
  | s, c :: cs => s.putPlainCells c color ++ plainCells color (s.putPlain c color) cs

def putcharCells (c color : UInt8) : List Cell :=
  if c = tab then plainCells color s [space, space, space, space] else s.putPlainCells c color

end Console

/-- The calls that output, scroll or clear, and those of `terminal_init` and `render_viewport`. -/
inductive Call where
  | putchar (c color : UInt8) | scrollUp | scrollDown | clear (color : UInt8) | init | render

namespace Framebuffer
open Console
variable (fb : Framebuffer)

def call (s : Console) : Call → Console
  | .putchar c color => (s.sized fb).putchar c color
  | .scrollUp => s.scrollUp
  | .scrollDown => s.scrollDown
  | .clear color => s.terminalClear color
  | .init => s.fbUpdateDims fb
  | .render => s.renderViewport

def run (calls : List Call) : Console := calls.foldl fb.call booted

/-- The cells that `putchar` and `render_viewport` touch. -/
def callCells (s : Console) : Call → List Cell
  | .putchar c color => (s.sized fb).putcharCells c color
  | .render => s.renderCells
  | _ => []

def cellsFrom : Console → List Call → List Cell
  | _, [] => []
  | s, call :: calls => fb.callCells s call ++ cellsFrom (fb.call s call) calls

def cells (calls : List Call) : List Cell := fb.cellsFrom booted calls

/-- The three variables are in their ranges. -/
structure InRange (s : Console) : Prop where
  lines_nonneg : 0 ≤ s.totalLines
  lines_lt : s.totalLines < scrollbackLines
  top_nonneg : 0 ≤ s.viewportTop
  cursor_lt : s.cursorX < fb.cols

/-- Also the dimensions are those of the framebuffer, once they are read. -/
structure Kept (s : Console) : Prop extends fb.InRange s where
  dims : s.fbCols = 0 ∧ s.fbRows = 0 ∨ s.fbCols = fb.cols ∧ s.fbRows = fb.rows

/-- Between the calls and within them the dimensions are read. -/
structure Sized (s : Console) : Prop extends fb.InRange s where
  cols_eq : s.fbCols = fb.cols
  rows_eq : s.fbRows = fb.rows

variable {fb} {s : Console} {c color : UInt8}

theorem kept_booted : fb.Kept booted where
  lines_nonneg := Int.le_refl 0
  lines_lt := by decide
  top_nonneg := Int.le_refl 0
  cursor_lt := fb.cols_pos
  dims := .inl ⟨rfl, rfl⟩

theorem Sized.kept (h : fb.Sized s) : fb.Kept s := { h with dims := .inr ⟨h.cols_eq, h.rows_eq⟩ }

theorem InRange.fbUpdateDims (h : fb.InRange s) : fb.Sized (s.fbUpdateDims fb) :=
  { toInRange := ⟨h.lines_nonneg, h.lines_lt, h.top_nonneg, h.cursor_lt⟩, cols_eq := rfl, rows_eq := rfl }

theorem Kept.sized (h : fb.Kept s) : fb.Sized (s.sized fb) := by
  rw [Console.sized]
  rcases h.dims with ⟨hcols, -⟩ | ⟨hcols, hrows⟩
  · rw [if_pos hcols]
    exact h.toInRange.fbUpdateDims
  · have hpos := fb.cols_pos
    rw [if_neg (by rw [hcols, cols]; omega)]
    exact { h with cols_eq := hcols, rows_eq := hrows }

theorem newTop_nonneg (s : Console) : 0 ≤ s.newTop := by
  rw [newTop]
  split <;> omega

/-! The variables. -/

/-- What one place back does to the variables. -/
theorem Sized.stepBack (h : fb.Sized s) : fb.Sized s.stepBack := by
  have hpos := fb.cols_pos
  have ⟨⟨hnonneg, hlines, htop, hcursor⟩, hcols, hrows⟩ := h
  rw [Console.stepBack]
  split
  · exact { toInRange := ⟨hnonneg, hlines, htop, by simp only; omega⟩, cols_eq := hcols, rows_eq := hrows }
  · split
    · refine {
        toInRange := ⟨by simp only; omega, by simp only; omega, htop, ?_⟩
        cols_eq := hcols
        rows_eq := hrows }
      rw [cols] at hcols ⊢
      simp only
      split <;> omega
    · exact h

/-- At the last line of the history the count stays. -/
theorem nextLine_range {n : Int} (h : 0 ≤ n) (hlt : n < scrollbackLines) :
    0 ≤ (if scrollbackLines ≤ n + 1 then scrollbackLines - 1 else n + 1) ∧
    (if scrollbackLines ≤ n + 1 then scrollbackLines - 1 else n + 1) < scrollbackLines := by
  rw [scrollbackLines] at hlt ⊢
  by_cases hend : 1000 ≤ n + 1
  · rw [if_pos hend]
    omega
  · rw [if_neg hend]
    omega

/-- The cursor of the next line is at its start, wherever it was. -/
theorem Sized.nextLine (h : fb.Sized s) {t : Console}
    (ht : t = { s with history := t.history, cursorX := t.cursorX }) :
    fb.Sized t.nextLine := by
  have ⟨hnonneg, hlt⟩ := nextLine_range h.lines_nonneg h.lines_lt
  rw [ht]
  exact { toInRange := ⟨hnonneg, hlt, h.top_nonneg, fb.cols_pos⟩, cols_eq := h.cols_eq, rows_eq := h.rows_eq }

/-- The word wrap brings the cursor back on the line. -/
theorem Sized.wrap (h : fb.Sized s) {t : Console}
    (ht : t = { s with history := t.history, cursorX := t.cursorX }) :
    fb.Sized t.wrap := by
  rw [Console.wrap]
  split
  · exact h.nextLine ht
  · next hfits =>
    rw [ht] at hfits ⊢
    exact { h with cursor_lt := by rw [← h.cols_eq]; exact Nat.lt_of_not_le hfits }

theorem Sized.stored (h : fb.Sized s) (c color : UInt8) : fb.Sized (s.store c color).wrap := by
  rw [store]
  by_cases hn : c = newline
  · rw [if_pos hn]
    exact (h.nextLine rfl).wrap rfl
  by_cases hb : c = backspace
  · rw [if_neg hn, if_pos hb]
    exact h.stepBack.wrap rfl
  · rw [if_neg hn, if_neg hb]
    exact h.wrap rfl

theorem Sized.refresh (h : fb.Sized s) (c : UInt8) : fb.Sized (s.refresh c) := by
  rw [Console.refresh]
  split
  · exact { h with top_nonneg := newTop_nonneg s }
  · rw [drawLast]
    split
    · split
      · exact { h with }
      · split
        · exact { h with }
        · exact h
    · exact h

theorem Sized.putPlain (h : fb.Sized s) (c color : UInt8) : fb.Sized (s.putPlain c color) := by
  rw [Console.putPlain]
  split
  · exact h
  · exact (h.stored c color).refresh c

theorem Sized.putchar (h : fb.Sized s) (c color : UInt8) : fb.Sized (s.putchar c color) := by
  rw [Console.putchar]
  split
  · exact (((h.putPlain space color).putPlain space color).putPlain space color).putPlain space color
  · exact h.putPlain c color

theorem Kept.scrollUp (h : fb.Kept s) : fb.Kept s.scrollUp := by
  simp only [Console.scrollUp]
  split
  · exact { h with }
  · split
    · next hne hle => exact { h with top_nonneg := by simp only; omega }
    · exact { h with }

theorem Kept.scrollDown (h : fb.Kept s) : fb.Kept s.scrollDown := by
  have htop := h.top_nonneg
  simp only [Console.scrollDown]
  split
  · exact { h with top_nonneg := by simp only; omega }
  · exact { h with }

theorem Kept.call (h : fb.Kept s) (call : Call) : fb.Kept (fb.call s call) := by
  cases call with
  | putchar c color => exact (h.sized.putchar c color).kept
  | scrollUp => exact h.scrollUp
  | scrollDown => exact h.scrollDown
  | clear color =>
    exact { toInRange := ⟨Int.le_refl 0, Int.ofNat_lt.mpr (Nat.succ_pos 999), Int.le_refl 0,
      fb.cols_pos⟩, dims := h.dims }
  | init => exact h.toInRange.fbUpdateDims.kept
  | render => exact { h with }

theorem kept_run (fb : Framebuffer) (calls : List Call) : fb.Kept (fb.run calls) := by
  suffices hall : ∀ s, fb.Kept s → fb.Kept (calls.foldl fb.call s) from hall _ kept_booted
  induction calls with
  | nil => exact fun s h => h
  | cons call calls ih => exact fun s h => ih _ (h.call call)

/-! The cells. -/

theorem mem_renderCells {cell : Cell} : cell ∈ s.renderCells →
    ∃ y x : Nat, y < s.fbRows ∧ s.viewportTop + y < scrollbackLines ∧ x < s.fbCols ∧
    cell = (s.viewportTop + y, x) := by
  intro h
  obtain ⟨y, hy, hcell⟩ := List.mem_flatMap.mp h
  obtain ⟨x, hx, rfl⟩ := List.mem_map.mp hcell
  have hrow := List.mem_takeWhile_imp hy
  exact ⟨y, x, List.mem_range.mp ((List.takeWhile_prefix _).subset hy), of_decide_eq_true hrow,
    List.mem_range.mp hx, rfl⟩

/-- On a line of the array's width a redraw stays inside. -/
theorem renderCells_inside (htop : 0 ≤ s.viewportTop) (hcols : s.fbCols ≤ vgaTextWidth) :
    ∀ cell ∈ s.renderCells, cell.Inside := by
  intro cell hcell
  obtain ⟨y, x, -, hrow, hx, rfl⟩ := mem_renderCells hcell
  exact ⟨by simp only; omega, hrow, by simp only; omega⟩

theorem storeCells_inside (h : fb.Sized s) (hwidth : fb.cols ≤ vgaTextWidth) :
    ∀ cell ∈ s.storeCells c, cell.Inside := by
  have hline : ∀ k < vgaTextWidth, Cell.Inside (s.totalLines, k) := fun k hk => ⟨h.lines_nonneg, h.lines_lt, hk⟩
  intro cell hcell
  rw [storeCells] at hcell
  split at hcell
  · obtain ⟨k, hk, rfl⟩ := List.mem_map.mp hcell
    have hk := List.mem_range'_1.mp hk
    exact hline k (by omega)
  split at hcell
  · have hback := h.stepBack
    have hcursor := hback.cursor_lt
    rw [List.mem_singleton.mp hcell]
    exact ⟨hback.lines_nonneg, hback.lines_lt, by simp only; omega⟩
  split at hcell
  · next hcursor =>
    rw [List.mem_singleton.mp hcell]
    exact hline _ hcursor
  · cases hcell

theorem putPlainCells_inside (h : fb.Sized s) (hwidth : fb.cols ≤ vgaTextWidth) :
    ∀ cell ∈ s.putPlainCells c color, cell.Inside := by
  intro cell hcell
  rw [putPlainCells] at hcell
  split at hcell
  · cases hcell
  rcases List.mem_append.mp hcell with hstore | hrefresh
  · exact storeCells_inside h hwidth cell hstore
  · rw [refreshCells] at hrefresh
    split at hrefresh
    · exact renderCells_inside (newTop_nonneg _) ((h.stored c color).cols_eq ▸ hwidth) cell hrefresh
    · cases hrefresh

theorem plainCells_inside (h : fb.Sized s) (hwidth : fb.cols ≤ vgaTextWidth) (cs : List UInt8) :
    ∀ cell ∈ plainCells color s cs, cell.Inside := by
  induction cs generalizing s with
  | nil => exact fun _ h => by cases h
  | cons c cs ih =>
    intro cell hcell
    rcases List.mem_append.mp hcell with hfirst | hrest
    · exact putPlainCells_inside h hwidth cell hfirst
    · exact ih (h.putPlain c color) cell hrest

theorem callCells_inside (h : fb.Kept s) (hwidth : fb.cols ≤ vgaTextWidth) (call : Call) :
    ∀ cell ∈ fb.callCells s call, cell.Inside := by
  cases call with
  | putchar c color =>
    rw [callCells, putcharCells]
    split
    · exact plainCells_inside h.sized hwidth _
    · exact putPlainCells_inside h.sized hwidth
  | render =>
    have hcols : s.fbCols ≤ vgaTextWidth := by
      rcases h.dims with ⟨hcols, -⟩ | ⟨hcols, -⟩ <;> omega
    exact renderCells_inside h.top_nonneg hcols
  | scrollUp | scrollDown | clear _ | init => exact fun _ h => by cases h

theorem cells_inside (hwidth : fb.cols ≤ vgaTextWidth) (calls : List Call) :
    ∀ cell ∈ fb.cells calls, cell.Inside := by
  suffices hall : ∀ s, fb.Kept s → ∀ cell ∈ fb.cellsFrom s calls, cell.Inside from hall _ kept_booted
  induction calls with
  | nil => exact fun _ _ _ h => by cases h
  | cons call calls ih =>
    intro s h cell hcell
    rcases List.mem_append.mp hcell with hfirst | hrest
    · exact callCells_inside h hwidth call cell hfirst
    · exact ih _ (h.call call) cell hrest

/-- A redraw of a wider screen reads behind the first row. -/
theorem strays_of_wide (hwide : vgaTextWidth < fb.cols) : (0, vgaTextWidth) ∈ fb.cells [.init, .render] := by
  have hrow : 0 ∈ (List.range fb.rows).takeWhile fun y => (0 : Int) + (y : Nat) < scrollbackLines := by
    obtain ⟨rows, hrows⟩ := Nat.exists_eq_add_one.mpr fb.rows_pos
    rw [show fb.rows = rows + 1 from hrows, List.range_succ_eq_map]
    exact List.mem_cons_self
  have hcell : (0, vgaTextWidth) ∈ (booted.fbUpdateDims fb).renderCells :=
    List.mem_flatMap.mpr ⟨0, hrow, List.mem_map.mpr ⟨vgaTextWidth, List.mem_range.mpr hwide, rfl⟩⟩
  exact List.mem_append_right _ (List.mem_append_left _ hcell)

/-- The variables stay in their ranges and `putchar` and `render_viewport` inside the
history, in any sequence of calls, if and only if the screen is not wider than the array. -/
theorem output_inside_iff (fb : Framebuffer) :
    (∀ calls, fb.InRange (fb.run calls) ∧ ∀ cell ∈ fb.cells calls, cell.Inside) ↔ fb.cols ≤ vgaTextWidth := by
  constructor
  · intro hall
    by_contra hwide
    have hinside := (hall [.init, .render]).2 _ (strays_of_wide (Nat.lt_of_not_le hwide))
    exact absurd hinside.2.2 (Nat.lt_irrefl _)
  · exact fun hwidth calls => ⟨(kept_run fb calls).toInRange, cells_inside hwidth calls⟩

/-- A screen of 1920 by 1080 pixels. -/
def fullHd : Framebuffer := ⟨1920, 1080, by decide, by decide⟩

/-- A redraw after `terminal_init` reads the column behind the last. -/
theorem fullHd_strays : (0, 128) ∈ fullHd.cells [.init, .render] ∧ ¬ Cell.Inside (0, 128) :=
  ⟨strays_of_wide (by decide), fun h => absurd h.2.2 (by decide)⟩

end Framebuffer
end GeckoOS.Terminal
