import GeckoOS.Drivers.Mouse
import GeckoOS.Lib.CInt
import GeckoOS.Terminal.Visible

/-! The mouse on the terminal: the callback scrolls with the wheel and draws the mouse
cursor over the cell of the history that the coordinates lead to. -/
namespace GeckoOS.Terminal
open Drivers Lib

/-- cursor_t: where the mouse cursor has been drawn. -/
structure MouseCursor where
  x : Int
  y : Int
  isDrawn : Bool

namespace Console
variable (s : Console)

/-- `console_history[viewport_top + cy][cx]`, where the coordinates are unsigned. -/
def viewCell (x y : Int) : Cell := (u32 (s.viewportTop + y), u32 x)

/-- The character under the mouse cursor is drawn again. -/
def uncover (cursor : MouseCursor) : Console :=
  if cursor.isDrawn then
    s.drawChar cursor.y (u32 cursor.x)
      (s.history (s.viewCell cursor.x cursor.y).1 (s.viewCell cursor.x cursor.y).2).char
  else s

def drawCursor (cursor : MouseCursor) (x y : Int) (visible : Bool) : Console × MouseCursor :=
  if visible then ((s.uncover cursor).drawChar y (u32 x) space, ⟨x, y, true⟩)
  else (s.uncover cursor, { cursor with isDrawn := false })

/-- The cells that it reads. -/
def drawCursorCells (cursor : MouseCursor) (x y : Int) (visible : Bool) : List Cell :=
  (if cursor.isDrawn then [s.viewCell cursor.x cursor.y] else []) ++ if visible then [s.viewCell x y] else []

/-- The wheel scrolls the view, which is then drawn. -/
def turn (wheel : Int) : Console :=
  let scroll := if wheel = 0 then 0 else wheel - 8
  (if scroll < 0 then s.scrollDown else if 0 < scroll then s.scrollUp else s).renderViewport

def getMouseEvent (cursor : MouseCursor) (md : MouseEventData) : Console × MouseCursor :=
  (s.turn md.scroll).drawCursor cursor md.x md.y true

def mouseEventCells (cursor : MouseCursor) (md : MouseEventData) : List Cell :=
  (s.turn md.scroll).drawCursorCells cursor md.x md.y true

end Console

/-- The mouse and the terminal; `terminal_init` registers the callback. -/
structure Session where
  mouse : Mouse
  console : Console
  cursor : MouseCursor
  callback : Bool

/-- A byte for the mouse handler, or a call of the terminal. -/
inductive Event where
  | byte (b : UInt8)
  | call (c : Call)

/-- `printf` of a text without conversions. -/
def Framebuffer.printf (fb : Framebuffer) (s : Console) (text : List UInt8) : Console :=
  (text.map fun c => Call.putchar c 0x0f).foldl fb.call s

/-- `"No callback registered\n"`. -/
def noCallback : List UInt8 := "No callback registered\n".toList.map fun c => .ofNat c.toNat

namespace Session

/-- After `mouse_init`. -/
def start : Session := ⟨Mouse.mouseInit, .booted, ⟨-1, -1, false⟩, false⟩

variable (fb : Framebuffer)

/-- What is done with an event of the mouse. -/
def deliver (s : Session) (md : MouseEventData) : Session :=
  if s.callback then
    { s with console := (s.console.getMouseEvent s.cursor md).1, cursor := (s.console.getMouseEvent
      s.cursor md).2 }
  else { s with console := fb.printf s.console noCallback }

def step (s : Session) : Event → Session
  | .byte b =>
    match (s.mouse.mouseHandler b).2 with
    | none => { s with mouse := (s.mouse.mouseHandler b).1 }
    | some md => ({ s with mouse := (s.mouse.mouseHandler b).1 } : Session).deliver fb md
  | .call .init => { s with console := fb.call s.console .init, callback := true }
  | .call c => { s with console := fb.call s.console c }

/-- The state and the byte with which a packet is complete. -/
def packetAt (s : Session) : Event → List (Session × UInt8)
  | .byte b => if s.mouse.cycle < 3 then [] else [(s, b)]
  | .call _ => []

/-- The packets of a run. -/
def packets : Session → List Event → List (Session × UInt8)
  | _, [] => []
  | s, i :: is => s.packetAt i ++ packets (s.step fb i) is

/-- The bytes of the packet. -/
def packet (p : Session × UInt8) : Mouse := p.1.mouse.store p.2

/-- After the packet the mouse is at the nearest place of the screen. -/
def Tracked (p : Session × UInt8) : Prop :=
  (p.1.step fb (.byte p.2)).mouse.xPos = Mouse.clamp vgaTextWidth (p.1.mouse.xPos + (packet p).dx) ∧
  (p.1.step fb (.byte p.2)).mouse.yPos = Mouse.clamp vgaTextHeight (p.1.mouse.yPos - (packet p).dy)

/-- The cells that `draw_cursor` reads for the packet. -/
def cursorCells (p : Session × UInt8) : List Cell :=
  if p.1.callback then p.1.console.mouseEventCells p.1.cursor (packet p).move.eventData else []

variable {fb} {s : Session} {i : Event} {b : UInt8}

theorem deliver_mouse (s : Session) (md : MouseEventData) : (s.deliver fb md).mouse = s.mouse := by
  rw [deliver]
  split
  · rfl
  · rfl

theorem step_start (h : s.mouse.cycle < 3) (b : UInt8) :
    s.step fb (.byte b) = { s with mouse := (s.mouse.mouseHandler b).1 } := by
  simp only [step, (Mouse.mouseHandler_start h b).1]

/-- The last byte of a packet. -/
theorem step_end (h : ¬ s.mouse.cycle < 3) (b : UInt8) : s.step fb (.byte b) =
    ({ s with mouse := (packet (s, b)).move } : Session).deliver fb (packet (s, b)).move.eventData := by
  simp only [step, Mouse.mouseHandler_end h b]
  rfl

theorem step_mouse_end (h : ¬ s.mouse.cycle < 3) (b : UInt8) :
    (s.step fb (.byte b)).mouse = (packet (s, b)).move := by
  rw [step_end h, deliver_mouse]

theorem step_mouse_call (s : Session) (c : Call) : (s.step fb (.call c)).mouse = s.mouse := by
  cases c <;> rfl

/-! The coordinates. -/

theorem tracked_iff (h : s.mouse.OnScreen) (hend : ¬ s.mouse.cycle < 3) (b : UInt8) :
    Tracked fb (s, b) ↔ (packet (s, b)).Regular := by
  rw [Tracked, step_mouse_end hend]
  exact (h.store b).tracked_iff

/-- From a place on the screen the packets of a run end where they should, if and only if
all of them are regular. -/
theorem packets_tracked_iff (h : s.mouse.OnScreen) (events : List Event) :
    (∀ p ∈ packets fb s events, Tracked fb p) ↔ ∀ p ∈ packets fb s events, (packet p).Regular := by
  induction events generalizing s with
  | nil => exact iff_of_true (List.forall_mem_nil _) (List.forall_mem_nil _)
  | cons i is ih =>
    rw [packets]
    cases i with
    | call c =>
      rw [packetAt, List.nil_append]
      exact ih (step_mouse_call s c ▸ h)
    | byte b =>
      rw [packetAt]
      by_cases hend : s.mouse.cycle < 3
      · rw [if_pos hend, List.nil_append]
        refine ih ?_
        rw [step_start hend]
        exact h.handler_start hend b
      · rw [if_neg hend, List.singleton_append, List.forall_mem_cons, List.forall_mem_cons, tracked_iff h hend]
        refine and_congr_right fun hregular => ih ?_
        rw [step_mouse_end hend]
        exact (h.store b).move hregular

end Session

/-! The view. -/

namespace Framebuffer
open Console
variable {fb : Framebuffer} {s : Console}

/-- No row of a screen of the usual height is behind the history. -/
structure Framed (fb : Framebuffer) (s : Console) : Prop extends fb.Kept s where
  unread : s.fbRows = 0 → s.totalLines = 0
  top_le : s.viewportTop ≤ max 1 (scrollbackLines - fb.rows)

theorem framed_booted : fb.Framed booted :=
  { kept_booted with unread := fun _ => rfl, top_le := by simp only [booted]; omega }

theorem Sized.putPlain_top (h : fb.Sized s) (htop : s.viewportTop ≤ max 1 (scrollbackLines - fb.rows))
    (c color : UInt8) :
    (s.putPlain c color).viewportTop ≤ max 1 (scrollbackLines - fb.rows) := by
  by_cases hc : c = 0
  · rwa [Console.putPlain, if_pos hc]
  obtain ⟨hstill, -, hrows⟩ := store_view s c color
  have hlines : (s.stored c color).totalLines < scrollbackLines := (h.stored c color).lines_lt
  rw [putPlain_eq hc, refresh_viewportTop, newTop_eq, hstill, hrows, h.rows_eq]
  split
  · omega
  · exact htop

theorem Sized.putPlains_top (h : fb.Sized s) (htop : s.viewportTop ≤ max 1 (scrollbackLines - fb.rows))
    (text : List UInt8)
    (color : UInt8) : (s.putPlains text color).viewportTop ≤ max 1 (scrollbackLines - fb.rows) := by
  induction text generalizing s with
  | nil => exact htop
  | cons c text ih => exact ih (h.putPlain c color) (h.putPlain_top htop c color)

theorem Framed.call (h : fb.Framed s) (call : Call) : fb.Framed (fb.call s call) := by
  have hkept := h.toKept.call call
  have hpos : 1 ≤ fb.rows := fb.rows_pos
  have hnonneg := h.top_nonneg
  have hlt := h.lines_lt
  have htop := h.top_le
  cases call with
  | putchar c color =>
    have hsized := h.toKept.sized
    have hrows := (hsized.putchar c color).rows_eq
    have hstill : (s.sized fb).viewportTop = s.viewportTop := by
      rw [Console.sized]
      split
      · rfl
      · rfl
    refine { hkept with unread := fun hzero => ?_, top_le := ?_ }
    · rw [Framebuffer.call, hrows] at hzero
      omega
    · rw [Framebuffer.call, putchar_eq]
      exact hsized.putPlains_top (hstill ▸ htop) (untab c) color
  | scrollUp =>
    refine { hkept with unread := ?_, top_le := ?_ }
    · simp only [Framebuffer.call, Console.scrollUp]
      split
      · exact h.unread
      · split
        · exact h.unread
        · exact h.unread
    · simp only [Framebuffer.call, Console.scrollUp]
      by_cases hzero : s.viewportTop = 0
      · rw [if_pos hzero]
        exact htop
      · rw [if_neg hzero, if_pos hnonneg]
        simp only
        omega
  | scrollDown =>
    refine { hkept with unread := ?_, top_le := ?_ }
    · simp only [Framebuffer.call, Console.scrollDown]
      split
      · exact h.unread
      · exact h.unread
    · simp only [Framebuffer.call, Console.scrollDown]
      split
      · next hroom =>
        simp only
        obtain ⟨-, hrows⟩ | ⟨-, hrows⟩ := h.dims
        · have hzero := h.unread hrows
          omega
        · omega
      · exact htop
  | clear color =>
    exact { hkept with unread := fun _ => rfl, top_le := by simp only [Framebuffer.call, terminalClear]; omega }
  | init =>
    refine { hkept with unread := fun hzero => ?_, top_le := htop }
    have hzero : fb.rows = 0 := hzero
    omega
  | render => exact { hkept with unread := h.unread, top_le := htop }

theorem framed_calls (h : fb.Framed s) (calls : List Call) : fb.Framed (calls.foldl fb.call s) := by
  induction calls generalizing s with
  | nil => exact h
  | cons call calls ih => exact ih (h.call call)

theorem Framed.printf (h : fb.Framed s) (text : List UInt8) : fb.Framed (fb.printf s text) := framed_calls h _

end Framebuffer

namespace Session
open Console
variable {fb : Framebuffer} {s : Session} {b : UInt8}

/-- A place on the screen. -/
def InView (x y : Int) : Prop := 0 ≤ x ∧ x < vgaTextWidth ∧ 0 ≤ y ∧ y < vgaTextHeight

theorem viewCell_inside {t : Console} {x y : Int} (h : fb.Framed t) (hrows : vgaTextHeight ≤ fb.rows)
    (hview : InView x y) :
    (t.viewCell x y).Inside := by
  obtain ⟨hx, hxlt, hy, hylt⟩ := hview
  have htop := h.top_le
  have hnonneg := h.top_nonneg
  rw [vgaTextHeight] at hrows hylt
  rw [vgaTextWidth] at hxlt
  rw [scrollbackLines] at htop
  rw [viewCell, Cell.Inside, scrollbackLines, vgaTextWidth, u32, u32]
  simp only
  omega

/-- What holds between the events of a run of regular packets. -/
structure Held (fb : Framebuffer) (s : Session) : Prop where
  console : fb.Framed s.console
  mouse : s.mouse.OnScreen
  cursor : s.cursor.isDrawn = true → InView s.cursor.x s.cursor.y

theorem held_start : Held fb start where
  console := Framebuffer.framed_booted
  mouse := by constructor <;> decide
  cursor := fun h => absurd h Bool.false_ne_true

theorem framed_turn {t : Console} (h : fb.Framed t) (wheel : Int) : fb.Framed (t.turn wheel) := by
  have hscroll : ∀ scroll : Int,
    fb.Framed (if scroll < 0 then t.scrollDown else if 0 < scroll then t.scrollUp else t) := by
    intro scroll
    split
    · exact h.call .scrollDown
    · split
      · exact h.call .scrollUp
      · exact h
  exact (hscroll _).call .render

theorem framed_uncover {t : Console} (h : fb.Framed t) (cursor : MouseCursor) :
    fb.Framed (t.uncover cursor) := by
  rw [uncover]
  split
  · exact { h with }
  · exact h

/-- The callback gets the coordinates as they are. -/
theorem inView_eventData {m : Mouse} (h : m.OnScreen) : InView m.eventData.x m.eventData.y := by
  obtain ⟨hx, hxlt, hy, hylt⟩ := h
  rw [vgaTextWidth] at hxlt
  rw [vgaTextHeight] at hylt
  have hxmod : m.xPos.bmod (2^16) = m.xPos := Int.bmod_eq_of_le (by omega) (by omega)
  have hymod : m.yPos.bmod (2^16) = m.yPos := Int.bmod_eq_of_le (by omega) (by omega)
  rw [Mouse.eventData, InView, hxmod, hymod]
  exact ⟨hx, hxlt, hy, hylt⟩

theorem Held.deliver (h : Held fb s) {md : MouseEventData} (hview : InView md.x md.y) :
    Held fb (s.deliver fb md) := by
  rw [Session.deliver]
  split
  · have hframed := framed_uncover (framed_turn h.console md.scroll) s.cursor
    exact { console := { hframed with }, mouse := h.mouse, cursor := fun _ => hview }
  · refine ⟨?_, h.mouse, h.cursor⟩
    dsimp only
    exact h.console.printf noCallback

theorem Held.call (h : Held fb s) (c : Call) : Held fb (s.step fb (.call c)) := by
  have hconsole := h.console.call c
  cases c with
  | putchar | scrollUp | scrollDown | clear | init | render => exact ⟨hconsole, h.mouse, h.cursor⟩

theorem Held.start (h : Held fb s) (hstart : s.mouse.cycle < 3) (b : UInt8) :
    Held fb (s.step fb (.byte b)) := by
  rw [step_start hstart]
  exact { h with mouse := h.mouse.handler_start hstart b }

/-- A regular packet ends on the screen. -/
theorem Held.packet (h : Held fb s) (hend : ¬ s.mouse.cycle < 3) (hregular : (packet (s, b)).Regular) :
    Held fb (s.step fb (.byte b)) := by
  have hmouse := (h.mouse.store b).move hregular
  have hheld : Held fb { s with mouse := (Session.packet (s, b)).move } := ⟨h.console, hmouse, h.cursor⟩
  rw [step_end hend]
  exact hheld.deliver (inView_eventData hmouse)

/-- The cells under the old and the new place of the mouse cursor are in the history. -/
theorem Held.cursorCells_inside (h : Held fb s) (hrows : vgaTextHeight ≤ fb.rows)
    (hregular : (Session.packet (s, b)).Regular) :
    ∀ cell ∈ cursorCells (s, b), cell.Inside := by
  have hview := inView_eventData ((h.mouse.store b).move hregular)
  have hframed := framed_turn h.console (Session.packet (s, b)).move.eventData.scroll
  intro cell hcell
  rw [cursorCells] at hcell
  split at hcell
  · rw [mouseEventCells, drawCursorCells, if_pos rfl] at hcell
    obtain hold | hnew := List.mem_append.mp hcell
    · split at hold
      · next hdrawn =>
        rw [List.mem_singleton.mp hold]
        exact viewCell_inside hframed hrows (h.cursor hdrawn)
      · cases hold
    · rw [List.mem_singleton.mp hnew]
      exact viewCell_inside hframed hrows hview
  · cases hcell

theorem packets_inside (h : Held fb s) (hrows : vgaTextHeight ≤ fb.rows) {events : List Event}
    (hregular : ∀ p ∈ packets fb s events, (Session.packet p).Regular) :
    ∀ p ∈ packets fb s events, ∀ cell ∈ cursorCells p, cell.Inside := by
  induction events generalizing s with
  | nil => exact List.forall_mem_nil _
  | cons i is ih =>
    rw [packets] at hregular ⊢
    cases i with
    | call c =>
      rw [packetAt, List.nil_append] at hregular ⊢
      exact ih (h.call c) hregular
    | byte b =>
      rw [packetAt] at hregular ⊢
      by_cases hend : s.mouse.cycle < 3
      · rw [if_pos hend, List.nil_append] at hregular ⊢
        exact ih (h.start hend b) hregular
      · rw [if_neg hend, List.singleton_append, List.forall_mem_cons] at hregular ⊢
        exact ⟨h.cursorCells_inside hrows hregular.1, ih (h.packet hend hregular.1) hregular.2⟩

/-! A screen of fewer rows. -/

/-- Calls only change the terminal. -/
theorem packets_calls (h : s.callback = true) (calls : List Call) (events : List Event) :
    packets fb s (calls.map Event.call ++ events) =
      packets fb { s with console := calls.foldl fb.call s.console } events := by
  induction calls generalizing s with
  | nil => rfl
  | cons c calls ih =>
    have hstep : s.step fb (.call c) = { s with console := fb.call s.console c } := by
      cases c with
      | init => rw [step, ← h]
      | putchar | scrollUp | scrollDown | clear | render => rfl
    rw [List.map_cons, List.cons_append, packets, packetAt, List.nil_append, hstep]
    exact ih (s := { s with console := fb.call s.console c }) h

/-- The first of them registers the callback. -/
theorem packets_init (calls : List Call) (events : List Event) :
    packets fb start ((.init :: calls).map Event.call ++ events) =
      packets fb ⟨Mouse.mouseInit, fb.run (.init :: calls), ⟨-1, -1, false⟩, true⟩ events := by
  rw [List.map_cons, List.cons_append, packets, packetAt, List.nil_append, packets_calls rfl]
  rfl

/-- The bytes that take the mouse from its first place down to the last row. -/
def down : List UInt8 := [0x28, 0, 211, 0]

def atBottom : Mouse := (((Mouse.mouseInit.mouseHandler 0x28).1.mouseHandler 0).1.mouseHandler 211).1

theorem packets_down (t : Console) (cursor : MouseCursor) :
    packets fb ⟨Mouse.mouseInit, t, cursor, true⟩ (down.map Event.byte) =
      [(⟨atBottom, t, cursor, true⟩, 0)] := rfl

/-- The first drawing, with the wheel at rest. -/
theorem cursorCells_first {m : Mouse} {x y : Int} (hx : (m.store b).move.eventData.x = x)
    (hy : (m.store b).move.eventData.y = y) (hscroll : (m.store b).move.eventData.scroll = 0) (t : Console) :
    cursorCells (⟨m, t, ⟨-1, -1, false⟩, true⟩, b) = [t.viewCell x y] := by
  rw [cursorCells, if_pos rfl, mouseEventCells, Session.packet, hx, hy, hscroll]
  rfl

/-- The calls after which the view is at the end of the history. -/
def fill : List Call := .clear 0 :: Framebuffer.typed (List.replicate 999 (newline, 0))

theorem viewportTop_fill (hrows : fb.rows < vgaTextHeight) :
    (fb.run (.init :: fill)).viewportTop = scrollbackLines - fb.rows := by
  rw [vgaTextHeight] at hrows
  obtain ⟨hwritten, -⟩ := Framebuffer.written_run fb [.init] 0 (List.replicate 999 (newline, 0))
  have htop := hwritten.top_eq
  rw [List.map_replicate, Framebuffer.layout_newlines] at htop
  have hlast : ((999 : Nat) : Int) < scrollbackLines := by decide
  have hfollow : (fb.run [.init]).followOutput = true := rfl
  rw [if_pos hlast, hfollow, if_pos rfl] at htop
  refine htop.trans ?_
  simp only [scrollbackLines]
  omega

/-- With the view there the mouse cursor at the last row of the usual screen is behind the history. -/
theorem strays_of_low (hrows : fb.rows < vgaTextHeight) :
    ∃ p, packets fb start ((.init :: fill).map Event.call ++ down.map Event.byte) = [p] ∧
    (Session.packet p).Regular ∧
      ∃ cell ∈ cursorCells p, ¬ cell.Inside := by
  have htop := viewportTop_fill hrows
  rw [packets_init, packets_down]
  generalize fb.run (.init :: fill) = t at htop
  refine ⟨_, rfl, ?_, t.viewCell 5 47, ?_, ?_⟩
  · change (atBottom.store 0).Regular
    decide
  · rw [cursorCells_first (x := 5) (y := 47) (by decide) (by decide) (by decide)]
    exact List.mem_singleton_self _
  · intro hinside
    have hlt := hinside.2.1
    simp only [viewCell, htop, u32, scrollbackLines, vgaTextHeight] at hlt hrows
    omega

/-- In every run of mouse bytes and terminal calls the packets end where they should if and
only if all of them are regular, and then `draw_cursor` stays inside the history if and
only if the screen has the rows of terminal.h. -/
theorem mouse_tracked_iff (fb : Framebuffer) :
    (∀ events, (∀ p ∈ packets fb start events, Tracked fb p) ↔
      ∀ p ∈ packets fb start events, (Session.packet p).Regular) ∧
    ((∀ events, (∀ p ∈ packets fb start events, (Session.packet p).Regular) →
        ∀ p ∈ packets fb start events, ∀ cell ∈ cursorCells p, cell.Inside) ↔ vgaTextHeight ≤ fb.rows) := by
  have hstart : Held fb start := held_start
  refine ⟨packets_tracked_iff hstart.mouse, ?_, fun hrows events => packets_inside hstart hrows⟩
  intro hall
  by_contra hlow
  obtain ⟨p, hpackets, hregular, cell, hcell, hstray⟩ := strays_of_low (Nat.lt_of_not_le hlow)
  have hmem : p ∈ packets fb start ((.init :: fill).map Event.call ++ down.map Event.byte) :=
    hpackets ▸ List.mem_singleton_self p
  refine hstray (hall _ (fun q hq => ?_) p hmem cell hcell)
  rw [hpackets, List.mem_singleton] at hq
  exact hq ▸ hregular

/-- Three bytes of a movement from column 5 by 123 columns. -/
def atEdge : Mouse := (((Mouse.mouseInit.mouseHandler 8).1.mouseHandler 123).1.mouseHandler 0).1

/-- It ends behind the last column. -/
theorem mouse_strays : ∃ p ∈ packets Framebuffer.xga start [.call .init, .byte 8, .byte 123, .byte 0, .byte 0],
    (p.1.step Framebuffer.xga (.byte p.2)).mouse.xPos = 128 ∧ ¬ Tracked Framebuffer.xga p ∧
      ((2, 128) : Cell) ∈ cursorCells p ∧ ¬ Cell.Inside (2, 128) := by
  have hx : ∀ t cursor, (step Framebuffer.xga ⟨atEdge, t, cursor, true⟩ (.byte 0)).mouse.xPos = 128 :=
    fun _ _ => rfl
  refine ⟨(⟨atEdge, booted.fbUpdateDims Framebuffer.xga, ⟨-1, -1, false⟩, true⟩, 0),
    List.mem_singleton_self _, hx _ _,
    fun htracked => ?_, ?_, fun hinside => ?_⟩
  · have hclamped := htracked.1
    rw [hx] at hclamped
    exact absurd hclamped (by decide)
  · rw [cursorCells_first (x := 128) (y := 2) (by decide) (by decide) (by decide)]
    exact List.mem_singleton_self (a := (booted.fbUpdateDims Framebuffer.xga).viewCell 128 2)
  · exact absurd hinside.2.2 (by decide)

end Session
end GeckoOS.Terminal
