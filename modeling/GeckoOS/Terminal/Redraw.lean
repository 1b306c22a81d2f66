import GeckoOS.Terminal.Console
import Mathlib.Data.List.Induction
import Mathlib.Data.List.Infix

/-! When the characters that `putchar` draws are the ones that a full redraw
would draw. -/
namespace GeckoOS.Terminal.Console

/-- The cursor is on the screen, and nothing but blanks stands from it on. -/
structure Placed (s : Console) : Prop where
  cols_pos : 1 ≤ s.fbCols
  cols_le : s.fbCols ≤ vgaTextWidth
  rows_pos : 1 ≤ s.fbRows
  rows_le : s.fbRows ≤ 999
  cursor_lt : s.cursorX < s.fbCols
  lines_nonneg : 0 ≤ s.totalLines
  lines_le : s.totalLines ≤ 998
  follows : s.followOutput = true
  blank : ∀ l k, (s.totalLines < l ∨ l = s.totalLines ∧ s.cursorX ≤ k) → k < s.fbCols →
  (s.history l k).char = space

/-- Also the view is where `putchar` leaves it. -/
structure Tidy (s : Console) : Prop extends Placed s where
  top : s.viewportTop = s.newTop

variable {s t : Console} {c color : UInt8}

theorem newTop_eq (s : Console) : s.newTop = max 0 (s.totalLines - s.fbRows + 1) := by
  rcases Int.lt_or_le (s.totalLines - s.fbRows + 1) 0 with h | h
  · rw [newTop, if_pos h]
    omega
  · rw [newTop, if_neg (by omega)]
    omega

theorem tidy_cleared {cols rows : Nat} (hcols : 1 ≤ cols ∧ cols ≤ 128) (hrows : 1 ≤ rows ∧ rows ≤ 999)
    (color : UInt8) :
    Tidy (cleared cols rows color) where
  cols_pos := hcols.1
  cols_le := hcols.2
  rows_pos := hrows.1
  rows_le := hrows.2
  cursor_lt := hcols.1
  lines_nonneg := Int.le_refl 0
  lines_le := by simp [cleared]
  follows := rfl
  blank _ _ _ _ := rfl
  top := by
    rw [newTop_eq]
    simp only [cleared]
    omega

/-! The characters of the view. -/

/-- The character of the history that belongs to a cell of the screen. -/
def viewed (s : Console) (y : Int) (x : Nat) : UInt8 := (s.history (s.viewportTop + y) x).char

/-- The current line is on the screen, and no row of the screen is behind the history. -/
theorem Tidy.rows (h : Tidy s) : 0 ≤ s.totalLines - s.viewportTop ∧ s.totalLines - s.viewportTop < s.fbRows ∧
    s.viewportTop + s.fbRows ≤ scrollbackLines := by
  have ⟨_, _, _, _, _, _, _, _, _⟩ := h.toPlaced
  rw [h.top, newTop_eq, scrollbackLines]
  omega

theorem Tidy.agrees_iff (h : Tidy s) : s.Agrees ↔ ∀ y x : Nat, y < s.fbRows → x < s.fbCols →
    s.screen y x = s.viewed y x := by
  refine forall₂_congr fun y x => forall₂_congr fun hy hx => ?_
  have hrows := h.rows
  simp only [renderViewport]
  rw [if_pos ⟨by omega, by omega, by omega, hx⟩, viewed]

/-- A full redraw agrees with itself. -/
theorem agrees_render (s : Console) : s.renderViewport.Agrees := by
  intro y x _ _
  simp only [renderViewport]
  split <;> rfl

/-! What `putchar` does to the history, for each kind of character. -/

/-- The state before the screen is touched. -/
def stored (s : Console) (c color : UInt8) : Console := (s.store c color).wrap

theorem stored_newline (h : Placed s) : s.stored newline color =
    { s with history := (s.blankRest color).history, cursorX := 0, totalLines := s.totalLines + 1 } := by
  have hlines := h.lines_le
  have hcols := h.cols_pos
  have hnext : ¬ scrollbackLines ≤ (s.blankRest color).totalLines + 1 := by
    simp only [blankRest, scrollbackLines]
    omega
  rw [stored, store, if_pos rfl, nextLine, if_neg hnext, wrap, if_neg (by simp only [blankRest]; omega)]
  rfl

theorem stored_backspace (h : Placed s) (color : UInt8) : ∃ l k, s.stored backspace color =
    { s with history := s.history.set l k ⟨space, color⟩, cursorX := k, totalLines := l } ∧
    k < s.fbCols ∧ 0 ≤ l ∧
    (l = s.totalLines ∧ (k + 1 = s.cursorX ∨ k = s.cursorX) ∨ l + 1 = s.totalLines ∧ s.cursorX = 0 ∧
      k + 1 = s.fbCols) := by
  have ⟨hpos, hle, _, _, hcursor, hnonneg, _, _, _⟩ := h
  rw [stored, store, if_neg (by decide), if_pos rfl, stepBack]
  by_cases hx : 0 < s.cursorX
  · refine ⟨s.totalLines, s.cursorX - 1, ?_, by omega, hnonneg, .inl ⟨rfl, .inl (by omega)⟩⟩
    rw [if_pos hx, wrap, if_neg (by simp only; omega)]
  · rw [if_neg hx]
    by_cases hl : 0 < s.totalLines
    · have hwidth : (if s.fbCols < vgaTextWidth then s.fbCols else vgaTextWidth) - 1 = s.fbCols - 1 := by
        split <;> omega
      refine ⟨s.totalLines - 1, s.fbCols - 1, ?_, by omega, by omega, .inr ⟨by omega, by omega, by omega⟩⟩
      rw [if_pos hl, wrap, hwidth, if_neg (by simp only; omega)]
    · refine ⟨s.totalLines, s.cursorX, ?_, by omega, hnonneg, .inl ⟨rfl, .inr rfl⟩⟩
      rw [if_neg hl, wrap, if_neg (by simp only; omega)]

theorem stored_char (h : Placed s) (hn : c ≠ newline) (hb : c ≠ backspace) : s.stored c color =
    if s.cursorX + 1 = s.fbCols then
      { s with history := s.history.set s.totalLines s.cursorX ⟨c,
        color⟩, cursorX := 0, totalLines := s.totalLines + 1 }
    else { s with history := s.history.set s.totalLines s.cursorX ⟨c, color⟩, cursorX := s.cursorX + 1 } := by
  have ⟨hpos, hle, _, _, hcursor, _, hlines, _, _⟩ := h
  rw [stored, store, if_neg hn, if_neg hb, if_pos (by omega), wrap]
  by_cases hend : s.cursorX + 1 = s.fbCols
  · rw [if_pos hend, if_pos (by simp only; omega), nextLine, if_neg (by simp only [scrollbackLines]; omega)]
  · rw [if_neg hend, if_neg (by simp only; omega)]

theorem placed_stored (h : Placed s) (hlines : (s.stored c color).totalLines ≤ 998) :
    Placed (s.stored c color) := by
  have ⟨hcols, hwidth, hrows, hrows', hcursor, hnonneg, hle, hfollow, hblank⟩ := h
  by_cases hn : c = newline
  · subst hn
    rw [stored_newline h] at hlines ⊢
    refine ⟨hcols, hwidth, hrows,
      hrows', by simp only; omega, by simp only; omega, hlines, hfollow, fun l k hlk hk => ?_⟩
    simp only at hlk hk
    simp only [blankRest]
    rw [if_neg (by omega)]
    exact hblank l k (.inl (by omega)) hk
  by_cases hb : c = backspace
  · subst hb
    obtain ⟨l, k, heq, hk, hl, hplace⟩ := stored_backspace h color
    rw [heq] at hlines ⊢
    refine ⟨hcols, hwidth, hrows, hrows', hk, hl, hlines, hfollow, fun l' k' hlk hk' => ?_⟩
    simp only at hlk hk'
    simp only [History.set]
    split
    · rfl
    · exact hblank l' k' (by omega) hk'
  · rw [stored_char h hn hb] at hlines ⊢
    split at hlines
    · next hend =>
      rw [if_pos hend]
      refine ⟨hcols, hwidth, hrows,
        hrows', by simp only; omega, by simp only; omega, hlines, hfollow, fun l k hlk hk => ?_⟩
      simp only at hlk hk
      simp only [History.set]
      rw [if_neg (by omega)]
      exact hblank l k (.inl (by omega)) hk
    · next hend =>
      rw [if_neg hend]
      refine ⟨hcols, hwidth, hrows, hrows', by simp only; omega, hnonneg, hlines, hfollow, fun l k hlk hk => ?_⟩
      simp only at hlk hk
      simp only [History.set]
      rw [if_neg (by omega)]
      exact hblank l k (by omega) hk

/-- Nothing that is stored moves the view or touches the screen. -/
theorem stored_view (h : Placed s) (c color : UInt8) : (s.stored c color).viewportTop = s.viewportTop ∧
    (s.stored c color).screen = s.screen ∧ (s.stored c color).fbCols = s.fbCols ∧
    (s.stored c color).fbRows = s.fbRows := by
  by_cases hn : c = newline
  · rw [hn, stored_newline h]
    exact ⟨rfl, rfl, rfl, rfl⟩
  by_cases hb : c = backspace
  · obtain ⟨l, k, heq, -⟩ := stored_backspace h color
    rw [hb, heq]
    exact ⟨rfl, rfl, rfl, rfl⟩
  · rw [stored_char h hn hb]
    split <;> exact ⟨rfl, rfl, rfl, rfl⟩

/-! The screen. -/

theorem refresh_scrolled (h : t.followOutput = true) (htop : t.newTop ≠ t.viewportTop) :
    t.refresh c = ({ t with viewportTop := t.newTop } : Console).renderViewport := by
  rw [refresh, if_pos ⟨h, htop⟩]

theorem refresh_still (htop : t.newTop = t.viewportTop) : t.refresh c = t.drawLast c := by
  rw [refresh, if_neg fun h => h.2 htop]

/-- The fast path only changes the screen. -/
theorem drawLast_eq (t : Console) (c : UInt8) : t.drawLast c = { t with screen := (t.drawLast c).screen } := by
  simp only [drawLast]
  split
  · split
    · rfl
    · split <;> rfl
  · rfl

theorem Placed.refresh (h : Placed t) (c : UInt8) : Tidy (t.refresh c) := by
  by_cases htop : t.newTop = t.viewportTop
  · rw [refresh_still htop, drawLast_eq]
    exact { toPlaced := { h with }, top := htop.symm }
  · rw [refresh_scrolled h.follows htop]
    exact { toPlaced := { h with }, top := rfl }

theorem refresh_totalLines (t : Console) (c : UInt8) : (t.refresh c).totalLines = t.totalLines := by
  rw [refresh]
  split
  · rfl
  · rw [drawLast_eq]

theorem putPlain_eq (hc : c ≠ 0) : s.putPlain c color = (s.stored c color).refresh c := if_neg hc

theorem Tidy.putPlain (h : Tidy s) (hlines : (s.putPlain c color).totalLines ≤ 998) :
    Tidy (s.putPlain c color) := by
  by_cases hc : c = 0
  · rw [Console.putPlain, if_pos hc]
    exact h
  · rw [putPlain_eq hc] at hlines ⊢
    rw [refresh_totalLines] at hlines
    exact (placed_stored h.toPlaced hlines).refresh c

/-- The cell that the fast path draws. -/
theorem Tidy.drawLast (h : Tidy t) (c : UInt8) (y : Int) (x : Nat) : (t.drawLast c).screen y x =
    if c = newline then t.screen y x
    else if y = t.totalLines - t.viewportTop ∧
        x = (if c = backspace then t.cursorX else if 0 < t.cursorX then t.cursorX - 1 else 0) then
      (if c = backspace then space else c)
    else t.screen y x := by
  have hrows := h.rows
  simp only [Console.drawLast]
  rw [if_pos ⟨hrows.1, hrows.2.1⟩]
  by_cases hb : c = backspace
  · rw [if_pos hb, if_neg (by rw [hb]; decide), if_pos hb, if_pos hb]
    rfl
  · rw [if_neg hb, if_neg hb, if_neg hb]
    by_cases hn : c = newline
    · rw [if_neg (not_not.mpr hn), if_pos hn]
    · rw [if_pos hn, if_neg hn]
      rfl

/-- The view of a history with another entry at a place. -/
theorem viewed_set (h : History) (top : Int) (l : Int) (k : Nat) (e : Entry) (y : Int) (x : Nat) :
    (h.set l k e (top + y) x).char = if y = l - top ∧ x = k then e.char else (h (top + y) x).char := by
  rw [History.set]
  by_cases hyx : y = l - top ∧ x = k
  · rw [if_pos hyx, if_pos (by omega)]
  · rw [if_neg hyx, if_neg (by omega)]

/-- A character that fills the line on the last column, in front of a line that
is on the screen already; it is drawn at the start of that line. -/
def Misplaced (s : Console) (c : UInt8) : Prop :=
  (c ≠ 0 ∧ c ≠ newline ∧ c ≠ backspace ∧ c ≠ tab ∧ c ≠ space) ∧ s.cursorX + 1 = s.fbCols ∧
  s.totalLines + 2 ≤ s.fbRows

instance (s : Console) (c : UInt8) : Decidable (s.Misplaced c) := inferInstanceAs (Decidable (_ ∧ _ ∧ _))

/-- At the end of a line the view stays exactly if the next line is on the screen already. -/
theorem Tidy.still_iff (h : Tidy s) :
    max 0 (s.totalLines + 1 - s.fbRows + 1) = s.viewportTop ↔ s.totalLines + 2 ≤ s.fbRows := by
  have hnonneg := h.lines_nonneg
  rw [h.top, newTop_eq]
  omega

theorem newTop_stored (h : Placed s) (hn : c ≠ newline) (hb : c ≠ backspace) (hend : s.cursorX + 1 = s.fbCols) :
    (s.stored c color).newTop = max 0 (s.totalLines + 1 - s.fbRows + 1) := by
  rw [newTop_eq, stored_char h hn hb, if_pos hend]

/-- The screen and the view, cell by cell, when the view does not move. -/
private theorem agrees_still (h : Tidy s) (hplaced : Placed (s.stored c color))
    (htop : (s.stored c color).newTop = (s.stored c color).viewportTop) :
    ((s.stored c color).refresh c).Agrees ↔ ∀ y x : Nat, y < s.fbRows → x < s.fbCols →
      ((s.stored c color).drawLast c).screen y x = ((s.stored c color).history (s.viewportTop + y) x).char := by
  obtain ⟨hvtop, -, hvcols, hvrows⟩ := stored_view h.toPlaced c color
  rw [(hplaced.refresh c).agrees_iff, refresh_still htop, drawLast_eq]
  simp only [viewed, hvtop, hvcols, hvrows]

theorem Tidy.agrees_putPlain (h : Tidy s) (hlines : (s.putPlain c color).totalLines ≤ 998) (ht : c ≠ tab)
    (ha : s.Agrees) (hgood : ¬ s.Misplaced c) : (s.putPlain c color).Agrees := by
  by_cases hc : c = 0
  · rw [Console.putPlain, if_pos hc]
    exact ha
  rw [putPlain_eq hc] at hlines ⊢
  rw [refresh_totalLines] at hlines
  have hplaced := placed_stored h.toPlaced hlines
  by_cases htop : (s.stored c color).newTop = (s.stored c color).viewportTop
  swap
  · rw [refresh_scrolled hplaced.follows htop]
    exact agrees_render _
  have htidy : Tidy (s.stored c color) := { toPlaced := hplaced, top := htop.symm }
  refine (agrees_still h hplaced htop).mpr fun y x hy hx => ?_
  have hold : s.screen y x = (s.history (s.viewportTop + y) x).char := h.agrees_iff.mp ha y x hy hx
  obtain ⟨hvtop, hvscreen, -⟩ := stored_view h.toPlaced c color
  rw [htidy.drawLast, hvscreen, hvtop, hold]
  by_cases hn : c = newline
  · -- the rest of the line was blank before
    subst hn
    rw [if_pos rfl, stored_newline h.toPlaced]
    simp only [blankRest]
    split
    · next hrest => exact h.blank _ _ (.inr ⟨hrest.1, hrest.2.1⟩) hx
    · rfl
  rw [if_neg hn]
  by_cases hb : c = backspace
  · subst hb
    obtain ⟨l, k, heq, -⟩ := stored_backspace h.toPlaced color
    rw [heq, if_pos rfl, if_pos rfl, viewed_set]
  rw [if_neg hb, if_neg hb]
  by_cases hend : s.cursorX + 1 = s.fbCols
  · -- a blank at the end of the line changes nothing, and is drawn on a blank
    have hroom : s.totalLines + 2 ≤ s.fbRows := by
      rw [newTop_stored h.toPlaced hn hb hend, hvtop] at htop
      exact h.still_iff.mp htop
    have hspace : c = space := by
      by_contra hspace
      exact hgood ⟨⟨hc, hn, hb, ht, hspace⟩, hend, hroom⟩
    rw [stored_char h.toPlaced hn hb, if_pos hend, viewed_set, hspace]
    simp only [Nat.lt_irrefl, if_false]
    have hcursor := h.cursor_lt
    by_cases hnext : (y : Int) = s.totalLines + 1 - s.viewportTop ∧ x = 0
    · rw [if_pos hnext, if_neg (by omega)]
      exact (h.blank _ _ (.inl (by omega)) hx).symm
    · rw [if_neg hnext]
      split
      · next hplace => exact h.blank _ _ (.inr (by omega)) hx
      · rfl
  · rw [stored_char h.toPlaced hn hb, if_neg hend, viewed_set]
    simp only [Nat.zero_lt_succ, if_true, Nat.add_sub_cancel]

theorem Tidy.not_agrees_putPlain (h : Tidy s) (hlines : (s.putPlain c color).totalLines ≤ 998) (ha : s.Agrees)
    (hbad : s.Misplaced c) : ¬ (s.putPlain c color).Agrees := by
  obtain ⟨⟨hc, hn, hb, -, hspace⟩, hend, hroom⟩ := hbad
  rw [putPlain_eq hc] at hlines ⊢
  rw [refresh_totalLines] at hlines
  have hplaced := placed_stored h.toPlaced hlines
  obtain ⟨hvtop, hvscreen, -⟩ := stored_view h.toPlaced c color
  have htop : (s.stored c color).newTop = (s.stored c color).viewportTop := by
    rw [newTop_stored h.toPlaced hn hb hend, hvtop]
    exact h.still_iff.mpr hroom
  have htidy : Tidy (s.stored c color) := { toPlaced := hplaced, top := htop.symm }
  have hrows := h.rows
  have hcursor := h.cursor_lt
  -- the cell of the character is still blank
  obtain ⟨y, hy⟩ : ∃ y : Nat, (y : Int) = s.totalLines - s.viewportTop :=
    ⟨(s.totalLines - s.viewportTop).toNat, by omega⟩
  intro hagrees
  have hcell := (agrees_still h hplaced htop).mp hagrees y s.cursorX (by omega) hcursor
  have hold : s.screen y s.cursorX = (s.history (s.viewportTop + y) s.cursorX).char :=
    h.agrees_iff.mp ha y _ (by omega) hcursor
  have hblank := h.blank (s.viewportTop + y) s.cursorX (.inr (by omega)) hcursor
  rw [htidy.drawLast, hvscreen, hvtop, if_neg hn, if_neg hb, if_neg hb, stored_char h.toPlaced hn hb,
    if_pos hend, viewed_set, hold, hblank] at hcell
  simp only [Nat.lt_irrefl, if_false] at hcell
  rw [if_neg (by omega), if_pos ⟨hy, trivial⟩] at hcell
  exact hspace hcell.symm

/-! Tabs and whole texts. -/

theorem wrap_lines (hle : t.totalLines ≤ 999) : t.totalLines ≤ t.wrap.totalLines ∧ t.wrap.totalLines ≤ 999 := by
  rw [wrap]
  split
  · simp only [nextLine, scrollbackLines]
    omega
  · exact ⟨Int.le_refl _, hle⟩

/-- A blank does not lead to an earlier line. -/
theorem lines_putPlain_space (color : UInt8) (hle : s.totalLines ≤ 999) :
    s.totalLines ≤ (s.putPlain space color).totalLines ∧ (s.putPlain space color).totalLines ≤ 999 := by
  have hstore : (s.store space color).totalLines = s.totalLines := by
    rw [store, if_neg (by decide), if_neg (by decide)]
  rw [putPlain_eq (by decide), refresh_totalLines, stored, ← hstore]
  exact wrap_lines (hstore ▸ hle)

theorem Tidy.putchar (h : Tidy s) (hlines : (s.putchar c color).totalLines ≤ 998) :
    Tidy (s.putchar c color) ∧ (s.Agrees → ((s.putchar c color).Agrees ↔ ¬ s.Misplaced c)) := by
  by_cases ht : c = tab
  · have hgood : ∀ s' : Console, ¬ s'.Misplaced space := fun s' hbad => hbad.1.2.2.2.2 rfl
    have hone : ∀ s' : Console, Tidy s' → (s'.putPlain space color).totalLines ≤ 998 →
        Tidy (s'.putPlain space color) ∧ (s'.Agrees → (s'.putPlain space color).Agrees) :=
      fun s' h' hl => ⟨h'.putPlain hl, fun ha => h'.agrees_putPlain hl (by decide) ha (hgood s')⟩
    rw [Console.putchar, if_pos ht] at hlines ⊢
    have hle := h.lines_le
    have h₁ := lines_putPlain_space (s := s) color (by omega)
    have h₂ := lines_putPlain_space color h₁.2
    have h₃ := lines_putPlain_space color h₂.2
    have h₄ := lines_putPlain_space color h₃.2
    obtain ⟨t₁, a₁⟩ := hone s h (by omega)
    obtain ⟨t₂, a₂⟩ := hone _ t₁ (by omega)
    obtain ⟨t₃, a₃⟩ := hone _ t₂ (by omega)
    obtain ⟨t₄, a₄⟩ := hone _ t₃ hlines
    exact ⟨t₄, fun ha => ⟨fun _ hbad => hbad.1.2.2.2.1 ht, fun _ => a₄ (a₃ (a₂ (a₁ ha)))⟩⟩
  · rw [Console.putchar, if_neg ht] at hlines ⊢
    refine ⟨h.putPlain hlines, fun ha => ⟨fun hagrees hbad => ?_, h.agrees_putPlain hlines ht ha⟩⟩
    exact h.not_agrees_putPlain hlines ha hbad hagrees

theorem write_concat (s : Console) (cs : List UInt8) (c color : UInt8) :
    s.write (cs ++ [c]) color = (s.write cs color).putchar c color := by
  rw [write, List.foldl_append]
  rfl

theorem Tidy.write (h : Tidy s) {cs : List UInt8}
    (hkeep : ∀ pre, pre <+: cs → (s.write pre color).totalLines < scrollbackLines - 1) :
    Tidy (s.write cs color) := by
  induction cs using List.reverseRecOn with
  | nil => exact h
  | append_singleton cs c ih =>
    have hlast := hkeep (cs ++ [c]) List.prefix_rfl
    rw [write_concat] at hlast ⊢
    rw [scrollbackLines] at hlast
    exact ((ih fun pre hpre => hkeep pre (hpre.trans (List.prefix_append cs [c]))).putchar (by omega)).1

theorem agrees_write_iff (h : Tidy s) (ha : s.Agrees) {cs : List UInt8}
    (hkeep : ∀ pre, pre <+: cs → (s.write pre color).totalLines < scrollbackLines - 1) :
    (∀ pre, pre <+: cs → (s.write pre color).Agrees) ↔ ∀ pre c, pre ++ [c] <+: cs →
    ¬ (s.write pre color).Misplaced c := by
  have hstep : ∀ pre c, pre ++ [c] <+: cs → (s.write pre color).Agrees →
      ((s.write (pre ++ [c]) color).Agrees ↔ ¬ (s.write pre color).Misplaced c) := by
    intro pre c hpre hagrees
    have hlast := hkeep _ hpre
    rw [scrollbackLines, write_concat] at hlast
    have hpre' : pre <+: cs := (List.prefix_append pre [c]).trans hpre
    rw [write_concat]
    exact ((h.write fun pre' h' => hkeep pre' (h'.trans hpre')).putchar (by omega)).2 hagrees
  constructor
  · intro hall pre c hpre
    exact (hstep pre c hpre (hall pre ((List.prefix_append pre [c]).trans hpre))).mp (hall _ hpre)
  · intro hgood pre
    induction pre using List.reverseRecOn with
    | nil => exact fun _ => ha
    | append_singleton pre c ih =>
      intro hpre
      exact (hstep pre c hpre (ih ((List.prefix_append pre [c]).trans hpre))).mpr (hgood pre c hpre)

/-- The screen of a text agrees with a full redraw after each of its characters
exactly if no character other than a blank fills a line above the last row of the screen. -/
theorem fastPath_agrees_iff (cols rows : Nat) (color : UInt8) (cs : List UInt8) (hcols : 1 ≤ cols ∧ cols ≤ 128)
    (hrows : 1 ≤ rows ∧ rows ≤ 999)
    (hkeep : ∀ pre, pre <+: cs → ((cleared cols rows color).write pre color).totalLines < scrollbackLines - 1) :
    (∀ pre, pre <+: cs → ((cleared cols rows color).write pre color).Agrees) ↔
      ∀ pre c, pre ++ [c] <+: cs → ¬ ((cleared cols rows color).write pre color).Misplaced c := by
  have htidy := tidy_cleared hcols hrows color
  exact agrees_write_iff htidy (htidy.agrees_iff.mpr fun _ _ _ _ => rfl) hkeep

/-- A blank fills the first row, letters fill the second one, and the text goes on with
a newline, a backspace and a tab that scroll. -/
theorem fastPath_agrees_scrolls :
    0 < ((cleared 3 2 7).write [97, 98, 32, 99, 100, 101, 10, 102, 8, 103, 9] 7).viewportTop ∧
    ∀ pre, pre <+: [97, 98, 32, 99, 100, 101, 10, 102, 8, 103, 9] → ((cleared 3 2 7).write pre 7).Agrees := by
  refine ⟨by decide +kernel, ?_⟩
  refine (fastPath_agrees_iff 3 2 7 _ (by decide) (by decide) fun pre hpre => ?_).mpr fun pre c hpre => ?_
  · have hall : ∀ pre ∈ [97, 98, 32, 99, 100, 101, 10, 102, 8, 103, 9].inits,
        ((cleared 3 2 7).write pre 7).totalLines < scrollbackLines - 1 := by decide +kernel
    exact hall pre ((List.mem_inits _ _).mpr hpre)
  · have hall : ∀ pre ∈ [97, 98, 32, 99, 100, 101, 10, 102, 8, 103, 9].inits,
        ¬ ((cleared 3 2 7).write pre.dropLast 7).Misplaced (pre.getLastD 0) := by decide +kernel
    have hgood := hall _ ((List.mem_inits _ _).mpr hpre)
    rwa [List.dropLast_concat, List.getLastD_concat] at hgood

/-- The last character of a line on a screen of two columns and two rows. -/
theorem fastPath_misdraws : ((cleared 2 2 7).write [97, 98] 7).totalLines < scrollbackLines - 1 ∧
    ¬ ((cleared 2 2 7).write [97, 98] 7).Agrees := by
  refine ⟨by decide, fun hagrees => ?_⟩
  exact absurd (hagrees 0 1 (by decide) (by decide)) (by decide)

end GeckoOS.Terminal.Console
