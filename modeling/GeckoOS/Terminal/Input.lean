import GeckoOS.Terminal.Console
import GeckoOS.Lib.Text
import GeckoOS.Lib.Ring

/-! `input` of terminal.c: a line is typed, erased and recalled from the history. The
history of lines is a ring of its own beside the scrollback. -/
namespace GeckoOS.Terminal
open Lib

def keyUp : UInt8 := 0x60
def keyDown : UInt8 := 0x61
def historySize : Nat := 10

/-- `history_entries` with the slot to write next and the number of lines. -/
structure PastLines where
  entries : Nat → View
  head : Nat
  count : Nat

def PastLines.none : PastLines := ⟨fun _ _ => 0, 0, 0⟩

def historyPush (past : PastLines) (buf : View) : PastLines :=
  if buf 0 = 0 then past
  else
    let (entry, i) := buf.copyText 511 0 (past.entries past.head)
    ⟨Function.update past.entries past.head (Function.update entry i 0), (past.head + 1) % historySize,
      if past.count < historySize then past.count + 1 else past.count⟩

/-- A scancode that `ps2_kb_wfi` returns, and what `scancode_to_ascii` makes of it then. -/
structure Scan where
  sc : UInt8
  ascii : UInt8
  deriving DecidableEq

/-- The size of the buffer and the colour of the text. -/
structure InputArgs where
  size : Nat
  color : UInt8
  two_le : 2 ≤ size
  size_le : size ≤ 512

/-- The variables of `input` and the ones of the terminal. -/
structure Input where
  console : Console
  past : PastLines
  buff : View
  buffCount : Nat
  startX : Nat
  startLine : Int
  browseIdx : Nat
  savedInput : View
  reading : Bool

namespace Input

/-- At the prompt; the two buffers hold anything. -/
def prompt (console : Console) (past : PastLines) (buff savedInput : View) : Input :=
  ⟨console, past, buff, 0, console.cursorX, console.totalLines, 0, savedInput, true⟩

variable (args : InputArgs) (s : Input)

/-- The copy of the line at the first step into the history. -/
def keepLine : Input := { s with savedInput := s.savedInput.splice 0 (s.buff.bytes 0 s.buffCount ++ [0]) }

/-- The cells of the scrollback that are erased. -/
def eraseCells : List (Int × Nat) :=
  ((List.range s.buffCount).map fun k =>
    (s.startLine + ((s.startX + k) / s.console.fbCols : Nat), (s.startX + k) % s.console.fbCols)).filter
      fun cell =>
      cell.2 < vgaTextWidth

/-- The input is erased and the cursor back at the prompt. -/
def eraseInput : Console :=
  ({ s.console with
      history := s.eraseCells.foldl (fun h cell => h.set cell.1 cell.2 ⟨space, args.color⟩) s.console.history
      cursorX := s.startX
      totalLines := s.startLine } : Console).renderViewport

/-- The copy of another line, which is also shown. -/
def recallLine (src : View) : Input :=
  let (buff, k) := src.copyText (args.size - 1) 0 s.buff
  { s with
    console := (s.eraseInput args).write (src.bytes 0 k) args.color
    buff := Function.update buff k 0
    buffCount := k }

/-- The line that belongs to the place in the history. -/
def source : View :=
  if s.browseIdx = 0 then s.savedInput else s.past.entries (back historySize s.past.head s.browseIdx)

/-- A step into the history. -/
def stepUp : Input :=
  let s := if s.browseIdx = 0 then s.keepLine else s
  if s.browseIdx < s.past.count then { s with browseIdx := s.browseIdx + 1 } else s

/-- A step back. -/
def stepDown : Input := if 0 < s.browseIdx then { s with browseIdx := s.browseIdx - 1 } else s

def browse : Input := s.recallLine args s.source

def enter : Input :=
  let buff := Function.update s.buff s.buffCount 0
  { s with buff, past := historyPush s.past buff, reading := false }

def erase : Input :=
  if 0 < s.buffCount then
    { s with
      console := s.console.putchar backspace args.color
      buffCount := s.buffCount - 1
      buff := Function.update s.buff (s.buffCount - 1) 0 }
  else s

def typeChar (ascii : UInt8) : Input :=
  if s.buffCount < args.size - 1 ∧ 0x20 ≤ ascii then
    { s with
      buff := Function.update s.buff s.buffCount ascii
      console := s.console.putchar ascii args.color
      buffCount := s.buffCount + 1 }
  else s

/-- A pass of the loop, which ends with the first newline. -/
def step (e : Scan) : Input :=
  if s.reading = false then s
  else if e.sc &&& 0x80 ≠ 0 ∨ e.sc = 0 then s
  else if e.sc = keyUp then s.stepUp.browse args
  else if e.sc = keyDown then s.stepDown.browse args
  else if e.ascii = newline then s.enter
  else if e.ascii = backspace then s.erase args
  else s.typeChar args e.ascii

def run (es : List Scan) : Input := es.foldl (step args) s

end Input
end GeckoOS.Terminal
