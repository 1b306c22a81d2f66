import GeckoOS.Lib.Bytes
import GeckoOS.Lib.CInt

/-! The Multiboot2 information structure (MBI) and the loop over the entries of a
memory map. Offsets are relative to the start of the MBI or of a tag: the boot loader
passes a 32-bit address, so no address in a walk wraps. -/
namespace GeckoOS.Boot
open Lib

def tagTypeEnd : Nat := 0
def tagTypeMmap : Nat := 6
def memoryAvailable : Nat := 1

/-- One entry of a memory map tag. -/
structure MmapEntry where
  baseAddr : UInt64
  length : UInt64
  type : Nat
  deriving DecidableEq

def MmapEntry.available (e : MmapEntry) : Bool := e.type == memoryAvailable

def mmapEntryAt (m : View) : MmapEntry := ⟨.ofNat (m.load64 0), .ofNat (m.load64 8), m.load32 16⟩

/-- The entries from offset `entry` of the tag at `tag` to its end, `none` if the
loop has not ended within the fuel. -/
def mmapEntries (tag : View) : Nat → Nat → Option (List MmapEntry)
  | 0, _ => none
  | fuel+1, entry =>
    if entry < tag.load32 4 then
      (mmapEntries tag fuel (entry + tag.load32 8)).map (mmapEntryAt (tag.shift entry) :: ·)
    else some []

end GeckoOS.Boot
