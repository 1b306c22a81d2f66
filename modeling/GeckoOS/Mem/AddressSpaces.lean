import GeckoOS.Mem.TableWalk

/-! The address spaces of paging.c and process.c: `vmm_init`, `mmio_map` and
`create_process`. Every access to the tables by `get_pte` or `new_address_space`
is recorded with the state in which it starts. -/
namespace GeckoOS.Mem.Paging

def pteCacheDisable : BitVec 64 := 0x10#64

/-- `g_fb_addr`, `g_fb_height` and `g_fb_pitch`. -/
structure Framebuffer where
  addr : BitVec 64
  height : BitVec 32
  pitch : BitVec 32

def Framebuffer.physStart (fb : Framebuffer) : BitVec 64 := fb.addr &&& ~~~0xFFF#64

/-- `fb_pages`, whose 64-bit sums do not overflow. -/
def Framebuffer.pages (fb : Framebuffer) : Nat := (fb.height.toNat * fb.pitch.toNat + 4095) / 4096 + 1

/-- `get_pte` on the way to a mapping, or `new_address_space`. -/
inductive Access where
  | getPte (pml4 : Nat) (phys virt : BitVec 64)
  | newAddressSpace

/-- An access, with the memory, the address space in cr3 and the address spaces made up to then. -/
structure Event (σ : Type) where
  before : Vmm σ
  active : Nat
  spaces : List Nat
  access : Access

/-- The static variables of both files, the address spaces made so far and the accesses so far. -/
structure Kernel (σ : Type) where
  vmm : Vmm σ
  currentPml4 : Nat
  mmioVirtNext : BitVec 64
  nextid : BitVec 32
  spaces : List Nat
  events : List (Event σ)

namespace Kernel
variable {σ : Type} (alloc : AllocateBlock σ)

/-- Before `vmm_init`. -/
def start (s : Vmm σ) : Kernel σ := ⟨s, 0, 0xFFFFFFFF90000000#64, 0#32, [], []⟩

def record (k : Kernel σ) (access : Access) : Kernel σ :=
  { k with events := k.events ++ [⟨k.vmm, k.currentPml4, k.spaces, access⟩] }

def vmmMap (k : Kernel σ) (pml4 : Nat) (phys virt flags : BitVec 64) : Bool × Kernel σ :=
  let r := k.vmm.vmmMap alloc pml4 phys virt flags
  (r.1, { k.record (.getPte pml4 phys virt) with vmm := r.2 })

/-- The loops around `vmm_map`, for `n` pages; they are left at the first failure. -/
def mapPages (k : Kernel σ) (pml4 : Nat) (phys virt flags : BitVec 64) : Nat → Bool × Kernel σ
  | 0 => (true, k)
  | n + 1 =>
    match k.vmmMap alloc pml4 phys virt flags with
    | (false, k) => (false, k)
    | (true, k) => k.mapPages pml4 (phys + 4096#64) (virt + 4096#64) flags n

/-- The pages that every address space has: the identity map and the framebuffer. -/
def mapShared (fb : Framebuffer) (k : Kernel σ) (pml4 : Nat) : Bool × Kernel σ :=
  match k.mapPages alloc pml4 0#64 0#64 (ptePresent ||| pteWritable) (identityEnd / 4096) with
  | (false, k) => (false, k)
  | (true, k) =>
    if fb.addr = 0#64 then (true, k)
    else k.mapPages alloc pml4 fb.physStart fb.physStart
      (ptePresent ||| pteWritable ||| pteCacheDisable) fb.pages

/-- `new_address_space`, and `alloc_table` in `vmm_init`, which does the same; 0 is NULL. -/
def newAddressSpace (k : Kernel σ) : Nat × Kernel σ :=
  let r := k.vmm.allocTable alloc
  (r.1.getD 0, { k.record .newAddressSpace with vmm := r.2, spaces := r.1.toList ++ k.spaces })

def vmmInit (fb : Framebuffer) (k : Kernel σ) : Bool × Kernel σ :=
  match k.newAddressSpace alloc with
  | (pml4, k) =>
    if pml4 = 0 then (false, k)
    else
      match k.mapShared alloc fb pml4 with
      | (false, k) => (false, k)
      | (true, k) =>
        match k.mapPages alloc pml4 0x100000#64 0xFFFFFFFF80100000#64 (ptePresent ||| pteWritable)
          (0x400000 / 4096) with
        | (false, k) => (false, k)
        | (true, k) => (true, { k with currentPml4 := pml4 })

/-- After `vmm_init`; what it did itself, on the tables of the boot loader, is not recorded. -/
def booted (fb : Framebuffer) (s : Vmm σ) : Option (Kernel σ) :=
  match (start s).vmmInit alloc fb with
  | (true, k) => some { k with events := [] }
  | (false, _) => none

def mmioMap (k : Kernel σ) (phys size : BitVec 64) : BitVec 64 × Kernel σ :=
  if k.currentPml4 = 0 then (0#64, k)
  else
    let physAligned := phys &&& ~~~0xFFF#64
    let offset := phys - physAligned
    let pages := (size + offset + 4095#64).toNat / 4096
    let virtBase := k.mmioVirtNext
    let k := { k with mmioVirtNext := k.mmioVirtNext + BitVec.ofNat 64 (pages * 4096) }
    match k.mapPages alloc k.currentPml4 physAligned virtBase
      (ptePresent ||| pteWritable ||| pteCacheDisable) pages with
    | (false, k) => (0#64, k)
    | (true, k) => (virtBase + offset, k)

/-- The stack of the main thread, whose mapping may fail unnoticed. Its program
buffer is empty, so that the stack is at the second page. -/
def mapStack (k : Kernel σ) (pml4 : Nat) : Kernel σ :=
  let r := alloc k.vmm.phys
  let k := { k with vmm := { k.vmm with phys := r.2 } }
  (k.vmmMap alloc pml4 (BitVec.ofNat 64 (r.1.getD 0)) 4096#64 (ptePresent ||| pteWritable)).2

/-- The new process goes into the empty queue, comes out of it and is executed. -/
def createProcess (fb : Framebuffer) (k : Kernel σ) (entryPoint entryTo dataPoint dataTo : BitVec 64) :
    BitVec 32 × Kernel σ :=
  match k.newAddressSpace alloc with
  | (pml4, k) =>
    match k.mapShared alloc fb pml4 with
    | (false, k) => (0#32, k)
    | (true, k) =>
      match k.mapPages alloc pml4 entryPoint entryTo (ptePresent ||| pteWritable) 1 with
      | (false, k) => (0#32, k)
      | (true, k) =>
        match k.mapPages alloc pml4 dataPoint dataTo (ptePresent ||| pteWritable) 1 with
        | (false, k) => (0#32, k)
        | (true, k) =>
          let id := k.nextid + 1#32
          let k := { k with nextid := id }.mapStack alloc pml4
          -- execute_process returns at once without an id or an address space
          (id, if id = 0#32 ∨ pml4 = 0 then k else { k with currentPml4 := pml4 })

end Kernel

/-- A call of the kernel that maps pages. -/
inductive MapCall where
  | vmmMap (pml4 : Nat) (phys virt flags : BitVec 64)
  | mmioMap (phys size : BitVec 64)
  | createProcess (entryPoint entryTo dataPoint dataTo : BitVec 64)

def Kernel.exec {σ : Type} (alloc : AllocateBlock σ) (fb : Framebuffer) (k : Kernel σ) : MapCall → Kernel σ
  | .vmmMap pml4 phys virt flags => (k.vmmMap alloc pml4 phys virt flags).2
  | .mmioMap phys size => (k.mmioMap alloc phys size).2
  | .createProcess entryPoint entryTo dataPoint dataTo =>
    (k.createProcess alloc fb entryPoint entryTo dataPoint dataTo).2

/-- The page at address `f` is mapped, and to the frame `f`. -/
def SelfMapped (m : Memory) (root f : Nat) : Prop :=
  ∃ t, tableAt m root (pathOf (BitVec.ofNat 64 f)) = some t ∧
    pteIsPresent (m (entryAddr t (ptIndex (BitVec.ofNat 64 f)))) = true ∧
    pteGetPhys (m (entryAddr t (ptIndex (BitVec.ofNat 64 f)))) = f

/-- A table of one of the address spaces. -/
def IsTable (m : Memory) (spaces : List Nat) (t : Nat) : Prop :=
  ∃ root ∈ spaces, ∃ p, IsPath p ∧ tableAt m root p = some t

/-- The frames below the end of the identity map that are tables or may become tables. -/
structure Needed {σ : Type} (avail : σ → Nat → Prop) (s : Vmm σ) (spaces : List Nat) (f : Nat) : Prop where
  low : f < identityEnd
  pos : f ≠ 0
  dvd : 4096 ∣ f
  role : avail s.phys f ∨ IsTable s.mem spaces f

namespace Event
variable {σ : Type}

/-- The frames dereferenced and cleared by an access, each with the memory at that moment. -/
def touched (alloc : AllocateBlock σ) (e : Event σ) : List (Memory × Nat) :=
  match e.access with
  | .getPte pml4 _ virt => e.before.touched alloc pml4 (pathOf virt)
  | .newAddressSpace => ((alloc e.before.phys).1.map fun f => (e.before.mem, f)).toList

/-- All of them are mapped to themselves in the active address space. -/
def Reachable (alloc : AllocateBlock σ) (e : Event σ) : Prop :=
  ∀ x ∈ e.touched alloc, SelfMapped x.1 e.active x.2

/-- There is a low block for each table that has to be made, and no page of a
frame that is a table, or may become one, is mapped elsewhere. -/
def Safe (alloc : AllocateBlock σ) (avail : σ → Nat → Prop) (low : σ → Nat) (e : Event σ) : Prop :=
  match e.access with
  | .getPte pml4 phys virt =>
    pml4 ∈ e.spaces ∧ Vmm.missing e.before.mem pml4 (pathOf virt) ≤ low e.before.phys ∧
      ∀ f, Needed avail e.before e.spaces f → pageOf virt = f / 4096 → pteGetPhys phys = f
  | .newAddressSpace => (alloc e.before.phys).1 ≠ none ∧ 0 < low e.before.phys

end Event

end GeckoOS.Mem.Paging
