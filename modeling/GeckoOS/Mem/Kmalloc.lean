import GeckoOS.Lib.CInt
import Mathlib.Logic.Function.Basic

/-! The kernel heap of mem.c. Memory is read in 4-byte cells, so that a block
header is exactly the packed struct of the source: size, free, next. -/
namespace GeckoOS.Mem.Kmalloc
open Lib

/-- One 32-bit cell for each address; headers sit at multiples of 8. -/
abbrev Cells := Nat → BitVec 32

/-- `sizeof(block)`. -/
def blockHeader : Nat := 16

/-- ALIGN8: add 7 and clear the low three bits. -/
def align8 (x : Nat) : Nat := add64 x 7 / 8 * 8

namespace Cells

/-- `b->size`, an `int` that every use of it in the source converts to `unsigned long`. -/
def size (m : Cells) (b : Nat) : Nat := u64 (m b).toInt
/-- `b->free` as a truth value. -/
def free (m : Cells) (b : Nat) : Bool := m (b+4) != 0#32
/-- `b->next`, a pointer in two cells. -/
def next (m : Cells) (b : Nat) : Nat := (m (b+8)).toNat + 2^32 * (m (b+12)).toNat

def setSize (m : Cells) (b v : Nat) : Cells := Function.update m b (BitVec.ofNat 32 v)
def setFree (m : Cells) (b v : Nat) : Cells := Function.update m (b+4) (BitVec.ofNat 32 v)
def setNext (m : Cells) (b v : Nat) : Cells :=
  Function.update (Function.update m (b+8) (BitVec.ofNat 32 v)) (b+12) (BitVec.ofNat 32 (v / 2^32))

end Cells

/-- The file's static variables and the memory they point into. -/
structure State where
  heapPtr : Nat
  heapEnd : Nat
  freeListHead : Nat
  cells : Cells

def State.withCells (s : State) (m : Cells) : State := { s with cells := m }

/-- The memory is whatever it was; only the three pointers are set. -/
def kallocInit (m : Cells) : State := ⟨0x200000, 0x500000, 0, m⟩

/-- The loop of `find_free_block`. The result 0 is NULL, `none` is a walk that has
not ended within the fuel. -/
def findFreeFrom (m : Cells) (size : Nat) : Nat → Nat → Option Nat
  | 0, _ => none
  | fuel+1, p =>
    if p = 0 then some 0
    else if m.free p ∧ size ≤ m.size p then some p
    else findFreeFrom m size fuel (m.next p)

def findFreeBlock (s : State) (fuel size : Nat) : Option Nat :=
  findFreeFrom s.cells size fuel s.freeListHead

/-- `none` is the NULL result. -/
def createBlock (s : State) (size : Nat) : Option (Nat × State) :=
  if s.heapEnd < add64 (add64 s.heapPtr blockHeader) size then none
  else
    let b := s.heapPtr
    some (b, { s with
      cells := ((s.cells.setSize b size).setFree b 0).setNext b 0
      heapPtr := add64 b (align8 (add64 blockHeader size)) })

def splitBlock (m : Cells) (b size : Nat) : Cells :=
  if m.size b ≤ add64 size blockHeader then m
  else
    let newBlock := add64 (add64 b blockHeader) size
    let m := m.setSize newBlock (sub64 (sub64 (m.size b) size) blockHeader)
    let m := m.setFree newBlock 1
    let m := m.setNext newBlock (m.next b)
    let m := m.setSize b size
    m.setNext b newBlock

/-- The pointer (0 for NULL) and the state after; `none` when the search does not return. -/
def kmalloc (s : State) (fuel : Nat) (size : UInt64) : Option (Nat × State) :=
  let size := align8 size.toNat
  match findFreeBlock s fuel size with
  | none => none
  | some 0 =>
    match createBlock s size with
    | none => some (0, s)
    | some (b, t) => some (add64 b blockHeader, t)
  | some b => some (add64 b blockHeader, s.withCells (splitBlock (s.cells.setFree b 0) b size))

def kfree (s : State) (ptr : Nat) : State :=
  if ptr = 0 then s
  else
    let b := sub64 ptr blockHeader
    { s with cells := (s.cells.setFree b 1).setNext b s.freeListHead, freeListHead := b }

end GeckoOS.Mem.Kmalloc
