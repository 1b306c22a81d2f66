import Mathlib.Tactic.Common

/-! The scrollback of terminal.c and the characters on the screen. The screen is
a grid of cells of the size of the font; its colours are left out. -/
namespace GeckoOS.Terminal

def vgaTextWidth : Nat := 128
def scrollbackLines : Int := 1000

/-- An entry of the history, as `vga_entry` packs it. -/
structure Entry where
  char : UInt8
  color : UInt8

def space : UInt8 := 32
def newline : UInt8 := 10
def backspace : UInt8 := 8
def tab : UInt8 := 9

/-- Lines and columns. -/
abbrev History := Int → Nat → Entry
abbrev Screen := Int → Nat → UInt8

def History.set (h : History) (line : Int) (col : Nat) (e : Entry) : History := fun l k =>
  if l = line ∧ k = col then e else h l k

structure Console where
  fbCols : Nat
  fbRows : Nat
  history : History
  screen : Screen
  cursorX : Nat
  totalLines : Int
  viewportTop : Int
  followOutput : Bool

namespace Console
variable (s : Console)

/-- `fb_draw_char` at a cell. -/
def drawChar (row : Int) (col : Nat) (c : UInt8) : Console :=
  { s with screen := fun y x => if y = row ∧ x = col then c else s.screen y x }

def renderViewport : Console :=
  { s with screen := fun y x =>
      if 0 ≤ y ∧ y < s.fbRows ∧ s.viewportTop + y < scrollbackLines ∧ x < s.fbCols then (s.history
        (s.viewportTop + y) x).char
      else s.screen y x }

/-- `total_lines++`, up to the last line of the history. -/
def nextLine : Console :=
  { s with
    cursorX := 0
    totalLines := if scrollbackLines ≤ s.totalLines + 1 then scrollbackLines - 1 else s.totalLines + 1 }

/-- The rest of the current line becomes blank. -/
def blankRest (color : UInt8) : Console :=
  { s with history := fun l k =>
      if l = s.totalLines ∧ s.cursorX ≤ k ∧ k < s.fbCols ∧ k < vgaTextWidth then ⟨space,
        color⟩ else s.history l k }

/-- One place back, at the start of a line to the end of the line above. -/
def stepBack : Console :=
  if 0 < s.cursorX then { s with cursorX := s.cursorX - 1 }
  else if 0 < s.totalLines then
    { s with
      totalLines := s.totalLines - 1
      cursorX := (if s.fbCols < vgaTextWidth then s.fbCols else vgaTextWidth) - 1 }
  else s

/-- The character goes into the history. -/
def store (c color : UInt8) : Console :=
  if c = newline then (s.blankRest color).nextLine
  else if c = backspace then
    let s := s.stepBack
    { s with history := s.history.set s.totalLines s.cursorX ⟨space, color⟩ }
  else
    { s with
      history := if s.cursorX < vgaTextWidth then s.history.set s.totalLines s.cursorX ⟨c, color⟩ else s.history
      cursorX := s.cursorX + 1 }

/-- The word wrap. -/
def wrap : Console := if s.fbCols ≤ s.cursorX then s.nextLine else s

/-- The line at the top that follows the output. -/
def newTop : Int := if s.totalLines - s.fbRows + 1 < 0 then 0 else s.totalLines - s.fbRows + 1

/-- The fast path: only the character that has changed. -/
def drawLast (c : UInt8) : Console :=
  let row := s.totalLines - s.viewportTop
  if 0 ≤ row ∧ row < s.fbRows then
    if c = backspace then s.drawChar row s.cursorX space
    else if c ≠ newline then s.drawChar row (if 0 < s.cursorX then s.cursorX - 1 else 0) c
    else s
  else s

/-- The end of `putchar`: a full redraw if the view scrolls, else the fast path. -/
def refresh (c : UInt8) : Console :=
  if s.followOutput ∧ s.newTop ≠ s.viewportTop then
    ({ s with viewportTop := s.newTop } : Console).renderViewport
  else s.drawLast c

/-- `putchar` of anything but a tab. -/
def putPlain (c color : UInt8) : Console := if c = 0 then s else ((s.store c color).wrap).refresh c

def putchar (c color : UInt8) : Console :=
  if c = tab then (((s.putPlain space color).putPlain space color).putPlain space color).putPlain space color
  else s.putPlain c color

def write (cs : List UInt8) (color : UInt8) : Console := cs.foldl (fun s c => s.putchar c color) s

/-- `terminal_clear` while the view follows the output. -/
def cleared (cols rows : Nat) (color : UInt8) : Console :=
  ⟨cols, rows, fun _ _ => ⟨space, color⟩, fun _ _ => space, 0, 0, 0, true⟩

/-- The characters on the screen are the ones that a full redraw would draw. -/
def Agrees : Prop := ∀ y : Nat, ∀ x : Nat, y < s.fbRows → x < s.fbCols →
    s.screen y x = s.renderViewport.screen y x

end Console
end GeckoOS.Terminal
