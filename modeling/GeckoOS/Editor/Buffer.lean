import GeckoOS.Lib.Scan
import Mathlib.Data.Int.Order.Basic
import Mathlib.Logic.Function.Basic
import Mathlib.Tactic.Common

/-! The text buffer of editor.c: the keys that change it or move its cursor. -/
namespace GeckoOS.Editor

def editorMaxFilesize : Int := 4096

def newline : UInt8 := 10

/-- The memory from `ed_buf` on, in both directions. -/
abbrev Memory := Int → UInt8

structure Buffer where
  buf : Memory
  len : Int
  cur : Int
  dirty : Bool

namespace Buffer
variable (e : Buffer)

def lineStartLoop (n pos line : Int) : Int :=
  if line < n ∧ pos < e.len then lineStartLoop n (pos + 1) (if e.buf pos = newline then line + 1 else line)
  else pos
termination_by (e.len - pos).toNat
decreasing_by omega

/-- The offset at which line `n` begins, or the length behind the last line. -/
def lineStart (n : Int) : Int := e.lineStartLoop n 0 0

/-- The newlines among the first `n` characters. -/
def newlines (n : Nat) (lines : Int) : Int :=
  (List.range n).foldl (fun lines (i : Nat) => if e.buf i = newline then lines + 1 else lines) lines

def countLines : Int := e.newlines e.len.toNat 1

def offsetToLine (offset : Int) : Int := e.newlines (min offset e.len).toNat 0

/-- The loop of `ed_offset_to_col`, with `i` characters to the left of the place. -/
def colLoop : Nat → Int → Int
  | 0, col => col
  | i+1, col => if e.buf i ≠ newline then colLoop i (col + 1) else col

def offsetToCol (offset : Int) : Int := e.colLoop offset.toNat 0

def lenLoop (start len : Int) : Int :=
  if start + len < e.len ∧ e.buf (start + len) ≠ newline then lenLoop start (len + 1) else len
termination_by (e.len - (start + len)).toNat
decreasing_by omega

def lineLen (n : Int) : Int := e.lenLoop (e.lineStart n) 0

/-- `buf[i] = buf[i - 1]` for `i` from `cur + n` down to `cur + 1`. -/
def shiftUp (cur : Int) : Nat → Memory → Memory
  | 0, buf => buf
  | n+1, buf => shiftUp cur n (Function.update buf (cur + n + 1) (buf (cur + n)))

/-- `buf[i] = buf[i + 1]` for the `n` indices from `i` on. -/
def shiftDown : Nat → Int → Memory → Memory
  | 0, _, buf => buf
  | n+1, i, buf => shiftDown n (i + 1) (Function.update buf i (buf (i + 1)))

def insert (c : UInt8) : Buffer :=
  if editorMaxFilesize - 1 ≤ e.len then e
  else
    let buf := Function.update (shiftUp e.cur (e.len - e.cur).toNat e.buf) e.cur c
    ⟨Function.update buf (e.len + 1) 0, e.len + 1, e.cur + 1, true⟩

def backspace : Buffer :=
  if e.cur = 0 then e
  else
    let buf := shiftDown (e.len - 1 - (e.cur - 1)).toNat (e.cur - 1) e.buf
    ⟨Function.update buf (e.len - 1) 0, e.len - 1, e.cur - 1, true⟩

def moveLeft : Buffer := if 0 < e.cur then { e with cur := e.cur - 1 } else e
def moveRight : Buffer := if e.cur < e.len then { e with cur := e.cur + 1 } else e

/-- The place in line `n` with the column of the cursor, or the end of that line. -/
def sameColumn (n : Int) : Int :=
  let col := e.offsetToCol e.cur
  e.lineStart n + if e.lineLen n < col then e.lineLen n else col

def moveUp : Buffer :=
  let line := e.offsetToLine e.cur
  if line = 0 then e else { e with cur := e.sameColumn (line - 1) }

def moveDown : Buffer :=
  let line := e.offsetToLine e.cur
  if e.countLines - 1 ≤ line then e else { e with cur := e.sameColumn (line + 1) }

/-- `ed_save`, with whether the file was written. -/
def save (written : Bool) : Buffer := if written then { e with dirty := false } else e

end Buffer

/-- The keys; a save tells whether it succeeds. -/
inductive Key where
  | insert (c : UInt8)
  | backspace
  | left | right | up | down
  | save (written : Bool)
  deriving DecidableEq

namespace Buffer

def step (e : Buffer) : Key → Buffer
  | .insert c => e.insert c
  | .backspace => e.backspace
  | .left => e.moveLeft
  | .right => e.moveRight
  | .up => e.moveUp
  | .down => e.moveDown
  | .save written => e.save written

def run (e : Buffer) (keys : List Key) : Buffer := keys.foldl step e

/-- The editor that `editor_run` starts with, after `ed_load` has read this content. -/
def opened (memory : Memory) (content : List UInt8) : Buffer :=
  ⟨fun i => if 0 ≤ i ∧ i < content.length then content.getD i.toNat
    0 else if i = content.length then 0 else memory i, content.length, 0, false⟩

end Buffer
end GeckoOS.Editor
