import GeckoOS.Lib.CInt
import Mathlib.Logic.Function.Basic

/-! The physical block allocator of physical_mem.c: a bitmap over 4 KiB blocks,
one bit a block, with a separate count of the used blocks. -/
namespace GeckoOS.Mem.PhysicalMem
open Lib

/-- BLOCK_SIZE. -/
def blockSize : Nat := 4096

/-- The file's static variables. Words of the bitmap outside its extent exist
but are never touched; both counters are 64-bit. -/
structure State where
  memoryMap : Nat → BitVec 32
  maxBlocks : Nat
  usedBlocks : Nat

namespace State

/-- `memory_map[bit / 32] & (1u << (bit % 32))`, read as a truth value. -/
def testBlock (s : State) (bit : Nat) : Bool :=
  s.memoryMap (bit / 32) &&& (1#32 <<< (bit % 32)) != 0#32

def withUsed (s : State) (u : Nat) : State := { s with usedBlocks := u }

def setWord (s : State) (i : Nat) (w : BitVec 32) : State :=
  { s with memoryMap := Function.update s.memoryMap i w }

def setBlock (s : State) (bit : Nat) : State :=
  if bit < s.maxBlocks then
    s.setWord (bit / 32) (s.memoryMap (bit / 32) ||| (1#32 <<< (bit % 32)))
  else s

def unsetBlock (s : State) (bit : Nat) : State :=
  if bit < s.maxBlocks then
    s.setWord (bit / 32) (s.memoryMap (bit / 32) &&& ~~~(1#32 <<< (bit % 32)))
  else s

/-- The innermost loop of `find_first_free_blocks`: `free_count` when it stops. -/
def freeCount (s : State) (bit : Nat) : Nat → Nat
  | 0 => 0
  | k+1 =>
    if s.maxBlocks ≤ bit then 0
    else if s.testBlock bit then 0
    else s.freeCount (bit+1) k + 1

/-- One word of the search: the first of its clear bits that starts a long enough run. -/
def findInWord (s : State) (numBlocks i : Nat) : Option Nat :=
  (List.range 32).find? fun j =>
    !s.testBlock (i*32+j) && s.freeCount (i*32+j) numBlocks == numBlocks

/-- Only the `max_blocks / 32` full words are searched for a start; -1 is failure. -/
def findFirstFreeBlocks (s : State) (numBlocks : Nat) : Int :=
  if numBlocks = 0 then -1 else
  match (List.range (s.maxBlocks / 32)).findSome? (fun i =>
      if s.memoryMap i ≠ 0xFFFFFFFF#32 then
        (s.findInWord numBlocks i).map fun j => int32 (i*32+j)
      else none) with
  | some start => start
  | none => -1

/-- Loop of `reserve_region` from `block` with `n` blocks left. -/
def reserveLoop (s : State) (block : Nat) : Nat → State
  | 0 => s
  | n+1 =>
    if block < s.maxBlocks then
      if s.testBlock block then s.reserveLoop (block+1) n
      else
        ((s.setBlock (block % 2^32)).withUsed (add64 s.usedBlocks 1)).reserveLoop (block+1) n
    else s

def reserveRegion (s : State) (base size : UInt64) : State :=
  s.reserveLoop (base.toNat / blockSize) (add64 size.toNat (blockSize - 1) / blockSize)

/-- Loop of `free_region`. -/
def freeLoop (s : State) (block : Nat) : Nat → State
  | 0 => s
  | n+1 =>
    if block < s.maxBlocks then
      if s.testBlock block then
        ((s.unsetBlock (block % 2^32)).withUsed (sub64 s.usedBlocks 1)).freeLoop (block+1) n
      else s.freeLoop (block+1) n
    else s

def freeRegion (s : State) (base size : UInt64) : State :=
  s.freeLoop (base.toNat / blockSize) (add64 size.toNat (blockSize - 1) / blockSize)

def deinitializeMemoryRegion (s : State) (base size : UInt64) : State :=
  s.reserveRegion base size

/-- `set_block((uint32_t)start + i)` for the blocks of a run. -/
def setRun (s : State) (start : Nat) : Nat → State
  | 0 => s
  | n+1 => (s.setBlock (start % 2^32)).setRun (start+1) n

/-- `unset_block((uint32_t)start + i)` for the blocks of a run. -/
def unsetRun (s : State) (start : Nat) : Nat → State
  | 0 => s
  | n+1 => (s.unsetBlock (start % 2^32)).unsetRun (start+1) n

/-- The returned pointer, 0 for NULL. A run that starts at block 0 also comes
back as 0, after its bits were set. -/
def allocateBlocks (s : State) (numBlocks : UInt32) : Nat × State :=
  if sub64 s.maxBlocks s.usedBlocks ≤ numBlocks.toNat then (0, s)
  else
    let start := s.findFirstFreeBlocks numBlocks.toNat
    if start = -1 then (0, s)
    else
      (u64 start * blockSize % 2^64,
        (s.setRun (u32 start) numBlocks.toNat).withUsed (add64 s.usedBlocks numBlocks.toNat))

def freeBlocks (s : State) (address : Nat) (numBlocks : UInt32) : State :=
  let start := int32 (address / blockSize)
  if start < 0 ∨ s.maxBlocks < u64 start + numBlocks.toNat then s
  else
    (s.unsetRun (u32 start) numBlocks.toNat).withUsed (sub64 s.usedBlocks numBlocks.toNat)

end State
end GeckoOS.Mem.PhysicalMem
