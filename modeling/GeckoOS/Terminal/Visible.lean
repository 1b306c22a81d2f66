import GeckoOS.Terminal.Accesses
import GeckoOS.Terminal.Redraw

/-! Whether the line that is written is on the screen after `terminal_clear`. The clear
takes the view back to the top but leaves `follow_output` as scrolling has set it. -/
namespace GeckoOS.Terminal

/-- The start of the next line of the history. -/
def lineBelow (line : Int) : Cell := (if scrollbackLines ≤ line + 1 then scrollbackLines - 1 else line + 1, 0)

/-- Where a text goes on behind a character, on lines of `cols` columns. -/
def placeAfter (cols : Nat) (place : Cell) (c : UInt8) : Cell :=
  if c = 0 then place
  else if c = newline then lineBelow place.1
  else if c = backspace then
    if 0 < place.2 then (place.1, place.2 - 1)
    else if 0 < place.1 then (place.1 - 1, min cols vgaTextWidth - 1)
    else place
  else if place.2 + 1 < cols then (place.1, place.2 + 1)
  else lineBelow place.1

/-- A tab is four blanks. -/
def untab (c : UInt8) : List UInt8 := if c = tab then [space, space, space, space] else [c]

/-- Where a text ends that begins at the top left. -/
def layout (cols : Nat) (text : List UInt8) : Cell := (text.flatMap untab).foldl (placeAfter cols) (0, 0)

namespace Console
variable {s t : Console} {c color : UInt8}

def place (s : Console) : Cell := (s.totalLines, s.cursorX)

/-- The line that is written is on the screen. -/
def Visible (s : Console) : Prop := s.viewportTop ≤ s.totalLines ∧ s.totalLines < s.viewportTop + s.fbRows

/-- The characters one by one, with no tab among them. -/
def putPlains (s : Console) (text : List UInt8) (color : UInt8) : Console :=
  text.foldl (fun t c => t.putPlain c color) s

theorem putchar_eq (s : Console) (c color : UInt8) : s.putchar c color = s.putPlains (untab c) color := by
  rw [putchar, untab]
  split
  · rfl
  · rfl

theorem wrap_of_lt (h : s.cursorX < s.fbCols) : s.wrap = s := if_neg (Nat.not_le.mpr h)

theorem refresh_place (t : Console) (c : UInt8) : (t.refresh c).place = t.place := by
  rw [refresh]
  split
  · rfl
  · rw [drawLast_eq]
    rfl

theorem refresh_followOutput (t : Console) (c : UInt8) : (t.refresh c).followOutput = t.followOutput := by
  rw [refresh]
  split
  · rfl
  · rw [drawLast_eq]

/-- The view after a character. -/
theorem refresh_viewportTop (t : Console) (c : UInt8) :
    (t.refresh c).viewportTop = if t.followOutput then t.newTop else t.viewportTop := by
  by_cases hfollow : t.followOutput = true
  · rw [if_pos hfollow]
    by_cases htop : t.newTop = t.viewportTop
    · rw [refresh_still htop, drawLast_eq, htop]
    · rw [refresh_scrolled hfollow htop]
      rfl
  · rw [if_neg hfollow, refresh, if_neg fun h => hfollow h.1, drawLast_eq]

/-- Storing a character leaves the view alone. -/
theorem store_view (s : Console) (c color : UInt8) : (s.stored c color).viewportTop = s.viewportTop ∧
    (s.stored c color).followOutput = s.followOutput ∧ (s.stored c color).fbRows = s.fbRows := by
  have hwrap : ∀ t : Console, t.viewportTop = s.viewportTop ∧ t.followOutput = s.followOutput ∧
    t.fbRows = s.fbRows →
      t.wrap.viewportTop = s.viewportTop ∧ t.wrap.followOutput = s.followOutput ∧ t.wrap.fbRows = s.fbRows := by
    intro t ht
    rw [wrap]
    split
    · exact ht
    · exact ht
  refine hwrap _ ?_
  rw [store]
  split
  · exact ⟨rfl, rfl, rfl⟩
  split
  · rw [stepBack]
    split
    · exact ⟨rfl, rfl, rfl⟩
    · split <;> exact ⟨rfl, rfl, rfl⟩
  · exact ⟨rfl, rfl, rfl⟩

end Console

namespace Framebuffer
open Console
variable {fb : Framebuffer} {s : Console} {c color : UInt8}

/-- The text goes on where it does on a page of this width. -/
theorem Sized.place_putPlain (h : fb.Sized s) (c color : UInt8) :
    (s.putPlain c color).place = placeAfter fb.cols s.place c := by
  have hpos := fb.cols_pos
  have hcols := h.cols_eq
  rw [placeAfter]
  by_cases hc : c = 0
  · rw [Console.putPlain, if_pos hc, if_pos hc]
  rw [if_neg hc, putPlain_eq hc, refresh_place, Console.stored, store]
  by_cases hn : c = newline
  · rw [if_pos hn, if_pos hn, wrap_of_lt (by simp only [blankRest]; rw [hcols]; exact hpos)]
    rfl
  by_cases hb : c = backspace
  · have hback := h.stepBack
    rw [if_neg hn, if_neg hn, if_pos hb, if_pos hb,
      wrap_of_lt (by simp only; rw [hback.cols_eq]; exact hback.cursor_lt)]
    by_cases hx : 0 < s.cursorX
    · rw [if_pos (show 0 < s.place.2 from hx), Console.stepBack, if_pos hx]
      rfl
    rw [if_neg (show ¬ 0 < s.place.2 from hx), Console.stepBack, if_neg hx]
    by_cases hl : 0 < s.totalLines
    · have hmin : min fb.cols vgaTextWidth = if s.fbCols < vgaTextWidth then s.fbCols else vgaTextWidth := by
        rw [hcols]
        split <;> omega
      rw [if_pos (show 0 < s.place.1 from hl), if_pos hl, hmin]
      rfl
    · rw [if_neg (show ¬ 0 < s.place.1 from hl), if_neg hl]
      rfl
  · rw [if_neg hn, if_neg hn, if_neg hb, if_neg hb, Console.wrap]
    by_cases hend : s.cursorX + 1 < fb.cols
    · rw [if_pos (show s.place.2 + 1 < fb.cols from hend), if_neg (by simp only; omega)]
      rfl
    · rw [if_neg (show ¬ s.place.2 + 1 < fb.cols from hend), if_pos (by simp only; omega)]
      rfl

/-- A text has been written from the top left on; the view follows it or stays at the top. -/
structure Written (fb : Framebuffer) (follow : Bool) (place : Cell) (s : Console) : Prop extends fb.Kept s where
  place_eq : s.place = place
  follow_eq : s.followOutput = follow
  top_eq : s.viewportTop = if follow then max 0 (place.1 - fb.rows + 1) else 0

variable {follow : Bool} {place : Cell}

theorem written_clear (h : fb.Kept s) (color : UInt8) :
    fb.Written s.followOutput (0, 0) (s.terminalClear color) where
  toKept := h.call (.clear color)
  place_eq := rfl
  follow_eq := rfl
  top_eq := by
    have hpos : 1 ≤ fb.rows := fb.rows_pos
    change (0 : Int) = if s.followOutput then max 0 ((0 : Int) - fb.rows + 1) else 0
    split <;> omega

namespace Written

theorem sized (h : fb.Written follow place s) : fb.Written follow place (s.sized fb) := by
  have hkept := h.toKept.sized.kept
  rw [Console.sized] at hkept ⊢
  split
  · next hcols =>
    rw [if_pos hcols] at hkept
    exact { hkept with place_eq := h.place_eq, follow_eq := h.follow_eq, top_eq := h.top_eq }
  · exact h

theorem putPlain (h : fb.Written follow place s) (hs : fb.Sized s) (c color : UInt8) :
    fb.Written follow (placeAfter fb.cols place c) (s.putPlain c color) := by
  have hplace := hs.place_putPlain c color
  rw [h.place_eq] at hplace
  by_cases hc : c = 0
  · rw [Console.putPlain, if_pos hc, placeAfter, if_pos hc]
    exact h
  obtain ⟨htop, hfollow, hrows⟩ := store_view s c color
  have hfollow' : (s.putPlain c color).followOutput = follow := by
    rw [putPlain_eq hc, refresh_followOutput, hfollow, h.follow_eq]
  refine { (hs.putPlain c color).kept with place_eq := hplace, follow_eq := hfollow', top_eq := ?_ }
  have hlines : (s.stored c color).totalLines = (placeAfter fb.cols place c).1 := by
    rw [← hplace, putPlain_eq hc, refresh_place]
    rfl
  rw [putPlain_eq hc, refresh_viewportTop, hfollow, h.follow_eq, newTop_eq, hlines, hrows, hs.rows_eq, htop]
  have hstill := h.top_eq
  cases follow with
  | true => rfl
  | false => exact hstill

theorem putPlains (h : fb.Written follow place s) (hs : fb.Sized s) (text : List UInt8) (color : UInt8) :
    fb.Written follow (text.foldl (placeAfter fb.cols) place) (s.putPlains text color) := by
  induction text generalizing s place with
  | nil => exact h
  | cons c text ih => exact ih (h.putPlain hs c color) (hs.putPlain c color)

theorem putchar (h : fb.Written follow place s) (hs : fb.Sized s) (c color : UInt8) :
    fb.Written follow ((untab c).foldl (placeAfter fb.cols) place) (s.putchar c color) := by
  rw [putchar_eq]
  exact h.putPlains hs (untab c) color

/-- While the view follows, the line is on the screen; at the top it is as long as there are rows. -/
theorem visible_iff (h : fb.Written follow place s) (hs : fb.Sized s) :
    s.Visible ↔ follow = true ∨ place.1 < fb.rows := by
  have hpos : 1 ≤ fb.rows := fb.rows_pos
  have hnonneg := h.lines_nonneg
  have hlines : s.totalLines = place.1 := congrArg Prod.fst h.place_eq
  rw [Visible, h.top_eq, hs.rows_eq, ← hlines]
  cases follow with
  | true =>
    rw [if_pos rfl]
    exact ⟨fun _ => .inl rfl, fun _ => by omega⟩
  | false =>
    rw [if_neg Bool.false_ne_true]
    refine ⟨fun hv => .inr (by omega), fun hv => ⟨hnonneg, ?_⟩⟩
    have hshort := hv.resolve_left Bool.false_ne_true
    omega

end Written

/-! Whole runs. -/

/-- The calls that write characters with their colours. -/
def typed (text : List (UInt8 × UInt8)) : List Call := text.map fun ch => .putchar ch.1 ch.2

theorem run_append (fb : Framebuffer) (calls calls' : List Call) :
    fb.run (calls ++ calls') = calls'.foldl fb.call (fb.run calls) :=
  List.foldl_append

/-- After the clear the text stands where the page has it. -/
theorem written_run (fb : Framebuffer) (events : List Call) (color : UInt8) (text : List (UInt8 × UInt8)) :
    fb.Written (fb.run events).followOutput (layout fb.cols (text.map Prod.fst))
      (fb.run (events ++ .clear color :: typed text)) ∧
      (text ≠ [] → fb.Sized (fb.run (events ++ .clear color :: typed text))) := by
  induction text using List.reverseRecOn with
  | nil =>
    rw [run_append]
    exact ⟨written_clear (kept_run fb events) color, fun h => absurd rfl h⟩
  | append_singleton text ch ih =>
    have hrun : fb.run (events ++ .clear color :: typed (text ++ [ch])) =
        ((fb.run (events ++ .clear color :: typed text)).sized fb).putchar ch.1 ch.2 := by
      rw [typed, List.map_append, ← List.cons_append, ← List.append_assoc, run_append]
      rfl
    have hsized := ih.1.toKept.sized
    rw [hrun]
    refine ⟨?_, fun _ => hsized.putchar ch.1 ch.2⟩
    rw [List.map_append, layout, List.flatMap_append, List.foldl_append, List.map_singleton,
      List.flatMap_singleton]
    exact ih.1.sized.putchar hsized ch.1 ch.2

/-- After each character behind a clear the line that is written is on the screen, if and
only if the view followed the output before the clear or the text never gets below
the last row of the screen. -/
theorem visible_after_clear_iff (fb : Framebuffer) (events : List Call) (color : UInt8)
    (text : List (UInt8 × UInt8)) :
    (∀ pre, pre <+: text → pre ≠ [] → (fb.run (events ++ .clear color :: typed pre)).Visible) ↔
      (fb.run events).followOutput = true ∨
        ∀ pre, pre <+: text → (layout fb.cols (pre.map Prod.fst)).1 < fb.rows := by
  have hiff : ∀ pre ≠ [], (fb.run (events ++ .clear color :: typed pre)).Visible ↔
      (fb.run events).followOutput = true ∨ (layout fb.cols (pre.map Prod.fst)).1 < fb.rows := by
    intro pre hne
    obtain ⟨hwritten, hsized⟩ := written_run fb events color pre
    exact hwritten.visible_iff (hsized hne)
  constructor
  · intro hall
    by_contra hnot
    rw [not_or] at hnot
    obtain ⟨hfollow, hlong⟩ := hnot
    refine hlong fun pre hpre => ?_
    by_cases hne : pre = []
    · rw [hne]
      exact Int.ofNat_lt.mpr fb.rows_pos
    · exact ((hiff pre hne).mp (hall pre hpre hne)).resolve_left hfollow
  · rintro (hfollow | hshort) pre hpre hne
    · exact (hiff pre hne).mpr (.inl hfollow)
    · exact (hiff pre hne).mpr (.inr (hshort pre hpre))

/-- Newlines go down to the last line of the history. -/
theorem layout_newlines (cols n : Nat) :
    layout cols (List.replicate n newline) =
      (if (n : Int) < scrollbackLines then (n : Int) else scrollbackLines - 1, 0) := by
  induction n with
  | zero => rfl
  | succ n ih =>
    have hlast : layout cols (List.replicate (n + 1) newline) =
      lineBelow (layout cols (List.replicate n newline)).1 := by
      rw [List.replicate_succ', layout, List.flatMap_append, List.foldl_append, ← layout]
      rfl
    rw [hlast, ih, lineBelow, scrollbackLines]
    refine Prod.ext ?_ rfl
    push_cast
    by_cases hn : (n : Int) < 1000
    · rw [if_pos hn]
      by_cases hn' : (n : Int) + 1 < 1000
      · rw [if_neg (by omega), if_pos hn']
      · rw [if_pos (by omega), if_neg hn']
    · rw [if_neg hn, if_pos (by omega), if_neg (by omega)]

/-- Every output is on the screen if and only if the view follows it or the screen
is as high as the history. -/
theorem always_visible_iff (fb : Framebuffer) (events : List Call) (color : UInt8) :
    (∀ text pre, pre <+: text → pre ≠ [] → (fb.run (events ++ .clear color :: typed pre)).Visible) ↔
      (fb.run events).followOutput = true ∨ scrollbackLines ≤ fb.rows := by
  have hlines : ∀ pre : List (UInt8 × UInt8), (layout fb.cols (pre.map Prod.fst)).1 < scrollbackLines := by
    intro pre
    obtain ⟨hwritten, -⟩ := written_run fb events color pre
    exact congrArg Prod.fst hwritten.place_eq ▸ hwritten.lines_lt
  constructor
  · intro hall
    by_contra hnot
    rw [not_or, Int.not_le] at hnot
    obtain ⟨hfollow, hrows⟩ := hnot
    -- as many newlines as there are rows
    obtain ⟨hwritten, hsized⟩ := written_run fb events color (List.replicate fb.rows (newline, color))
    have hne : List.replicate fb.rows (newline, color) ≠ [] := fun h => by
      have hzero := congrArg List.length h
      have hpos : 1 ≤ fb.rows := fb.rows_pos
      rw [List.length_replicate, List.length_nil] at hzero
      omega
    have hvisible := hall _ _ List.prefix_rfl hne
    rw [hwritten.visible_iff (hsized hne), List.map_replicate, layout_newlines, if_pos hrows] at hvisible
    exact absurd (hvisible.resolve_left hfollow) (Int.lt_irrefl _)
  · intro h text pre _ hne
    obtain ⟨hwritten, hsized⟩ := written_run fb events color pre
    refine (hwritten.visible_iff (hsized hne)).mpr (h.imp_right fun hrows => ?_)
    exact Int.lt_of_lt_of_le (hlines pre) hrows

/-- The screen that the boot header asks for. -/
def xga : Framebuffer := ⟨1024, 768, by decide, by decide⟩

/-- One letter, the mouse wheel turned back, a clear and 48 newlines. -/
theorem hidden_after_clear :
    ¬ (xga.run ([.putchar 97 7, .scrollUp] ++ .clear 7 :: typed (List.replicate 48 (newline, 7)))).Visible := by
  obtain ⟨hwritten, hsized⟩ := written_run xga [.putchar 97 7, .scrollUp] 7 (List.replicate 48 (newline, 7))
  rw [hwritten.visible_iff (hsized (List.cons_ne_nil _ _)), List.map_replicate, layout_newlines]
  decide

end Framebuffer
end GeckoOS.Terminal
