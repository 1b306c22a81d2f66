import Mathlib.Logic.Function.Basic

/-! The four-level page tables of paging.c, in flat physical memory. Table
frames come from the block allocator, which is a parameter here. -/
namespace GeckoOS.Mem.Paging

/-- One 8-byte entry for each address that is a multiple of 8. -/
abbrev Memory := Nat → BitVec 64

def ptePresent : BitVec 64 := 1#64
def pteWritable : BitVec 64 := 2#64
def pteHuge : BitVec 64 := 0x80#64
def pteAddrMask : BitVec 64 := 0x000FFFFFFFFFF000#64

def pteGetPhys (e : BitVec 64) : Nat := (e &&& pteAddrMask).toNat
def pteIsPresent (e : BitVec 64) : Bool := e &&& ptePresent != 0#64

/-- PML4_INDEX, PDPT_INDEX, PD_INDEX and PT_INDEX: nine bits above `shift`. -/
def indexAt (shift : Nat) (a : BitVec 64) : Nat := ((a >>> shift) &&& 0x1FF#64).toNat

def pml4Index := indexAt 39
def pdptIndex := indexAt 30
def pdIndex := indexAt 21
def ptIndex := indexAt 12

/-- `&table->entries[i]`. -/
def entryAddr (table i : Nat) : Nat := table + 8 * i

/-- `allocate_blocks(1)` as the paging code sees it: an address or NULL, and the
allocator's next state. -/
abbrev AllocateBlock (σ : Type) := σ → Option Nat × σ

/-- Memory and the state of the block allocator. -/
structure Vmm (σ : Type) where
  mem : Memory
  phys : σ

namespace Vmm
variable {σ : Type} (alloc : AllocateBlock σ)

def store (s : Vmm σ) (a : Nat) (e : BitVec 64) : Vmm σ := { s with mem := Function.update s.mem a e }

/-- `memset(t, 0, sizeof(page_table_t))`. -/
def clearTable (m : Memory) (t : Nat) : Memory := fun a => if t ≤ a ∧ a < t + 4096 then 0#64 else m a

def allocTable (s : Vmm σ) : Option Nat × Vmm σ :=
  match alloc s.phys with
  | (some t, a) => (some t, ⟨clearTable s.mem t, a⟩)
  | (none, a) => (none, ⟨s.mem, a⟩)

/-- One level of `get_pte`: the table behind an entry, made first if it is
missing and `create` is set. The three levels of the source differ only in the entry. -/
def nextTable (s : Vmm σ) (entry : Nat) (create : Bool) : Option Nat × Vmm σ :=
  if pteIsPresent (s.mem entry) then (some (pteGetPhys (s.mem entry)), s)
  else if create then
    match s.allocTable alloc with
    | (none, s) => (none, s)
    | (some t, s) =>
      let s := s.store entry (BitVec.ofNat 64 t ||| ptePresent ||| pteWritable)
      (some (pteGetPhys (s.mem entry)), s)
  else (none, s)

/-- The address of the leaf entry, or NULL. -/
def getPte (s : Vmm σ) (pml4 : Nat) (virt : BitVec 64) (create : Bool) : Option Nat × Vmm σ :=
  match s.nextTable alloc (entryAddr pml4 (pml4Index virt)) create with
  | (none, s) => (none, s)
  | (some pdpt, s) =>
    match s.nextTable alloc (entryAddr pdpt (pdptIndex virt)) create with
    | (none, s) => (none, s)
    | (some pd, s) =>
      match s.nextTable alloc (entryAddr pd (pdIndex virt)) create with
      | (none, s) => (none, s)
      | (some pt, s) => (some (entryAddr pt (ptIndex virt)), s)

/-- The TLB flush that follows a store has no effect on the tables. -/
def vmmMap (s : Vmm σ) (pml4 : Nat) (phys virt flags : BitVec 64) : Bool × Vmm σ :=
  match s.getPte alloc pml4 virt true with
  | (none, s) => (false, s)
  | (some pte, s) =>
    (true, s.store pte ((phys &&& pteAddrMask) ||| (flags &&& ~~~pteAddrMask) ||| ptePresent))

def vmmUnmap (s : Vmm σ) (pml4 : Nat) (virt : BitVec 64) : Vmm σ :=
  match s.getPte alloc pml4 virt false with
  | (none, s) => s
  | (some pte, s) => s.store pte 0#64

def vmmGetPhys (s : Vmm σ) (pml4 : Nat) (virt : BitVec 64) : Nat :=
  match s.getPte alloc pml4 virt false with
  | (none, _) => 0
  | (some pte, s) => if pteIsPresent (s.mem pte) then pteGetPhys (s.mem pte) else 0

end Vmm
end GeckoOS.Mem.Paging
