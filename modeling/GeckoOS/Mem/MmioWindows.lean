import GeckoOS.Lib.Runs
import GeckoOS.Mem.IdentityMap
import Mathlib.Data.List.Pairwise

/-! The windows of `mmio_map` and `mmio_unmap`: an area of virtual pages that are
handed out in order and never again. -/
namespace GeckoOS.Mem.Paging
open Lib
variable {σ : Type}

namespace Kernel
variable (alloc : AllocateBlock σ)

/-- The loop of `mmio_unmap`. -/
def unmapPages (k : Kernel σ) (pml4 : Nat) (virt : BitVec 64) : Nat → Kernel σ
  | 0 => k
  | n + 1 => { k with vmm := k.vmm.vmmUnmap alloc pml4 virt }.unmapPages pml4 (virt + 4096#64) n

def mmioUnmap (k : Kernel σ) (virt size : BitVec 64) : Int × Kernel σ :=
  if k.currentPml4 = 0 then (-1, k)
  else
    let virtAligned := virt &&& ~~~0xFFF#64
    let offset := virt - virtAligned
    let pages := (size + offset + 4095#64).toNat / 4096
    (0, k.unmapPages alloc k.currentPml4 virtAligned pages)

end Kernel

/-- What `mmio_map` was called with, and its result. -/
structure Window where
  virt : BitVec 64
  phys : BitVec 64
  size : BitVec 64
  deriving DecidableEq

/-- How many pages the bytes from `addr` on are in. -/
def spanPages (addr size : BitVec 64) : Nat := (addr.toNat % 4096 + size.toNat + 4095) / 4096

namespace Window

/-- Each byte is in the page of its physical address, at the same offset. -/
def Mapped (w : Window) (k : Kernel σ) : Prop :=
  ∀ i < w.size.toNat, lookup k.vmm.mem k.currentPml4 (w.virt + BitVec.ofNat 64 i) =
    some ((w.phys.toNat + i) / 4096 * 4096) ∧
    (w.virt + BitVec.ofNat 64 i).toNat % 4096 = (w.phys.toNat + i) % 4096

/-- No page is in both. -/
def Apart (w w' : Window) : Prop :=
  ∀ i < w.size.toNat, ∀ j < w'.size.toNat, pageOf (w.virt + BitVec.ofNat 64 i) ≠
    pageOf (w'.virt + BitVec.ofNat 64 j)

end Window

inductive MmioCall where
  | mmioMap (phys size : BitVec 64)
  | mmioUnmap (w : Window)

/-- The kernel, with the number of pages that were handed out, the windows that
were returned, the last one first, and those of them that are not unmapped. -/
structure Mmio (σ : Type) where
  kernel : Kernel σ
  taken : Nat
  returned : List Window
  live : List Window

/-- MMIO_VIRT_BASE. -/
def mmioVirtBase : Nat := 0xFFFFFFFF90000000

namespace Mmio
variable (alloc : AllocateBlock σ)

def start (k : Kernel σ) : Mmio σ := ⟨k, 0, [], []⟩

def exec (s : Mmio σ) : MmioCall → Mmio σ
  | .mmioMap phys size =>
    let r := s.kernel.mmioMap alloc phys size
    let s := { s with kernel := r.2, taken := s.taken + spanPages phys size }
    if r.1 = 0#64 then s
    else { s with returned := ⟨r.1, phys, size⟩ :: s.returned, live := ⟨r.1, phys, size⟩ :: s.live }
  | .mmioUnmap w =>
    { s with kernel := (s.kernel.mmioUnmap alloc w.virt w.size).2, live := s.live.filter (· ≠ w) }

/-- The device is below 2^52 and `mmio_virt_next` does not pass 2^64; only a window that
was returned is unmapped. -/
def Allowed (s : Mmio σ) : MmioCall → Prop
  | .mmioMap phys size =>
    phys.toNat + size.toNat ≤ 2^52 ∧ mmioVirtBase + 4096 * (s.taken + spanPages phys size) ≤ 2^64
  | .mmioUnmap w => w ∈ s.returned

/-- The call leaves the other windows, the lower half with the identity map, and the kernel as they are. -/
structure Keeps (s : Mmio σ) (call : MmioCall) (s' : Mmio σ) : Prop where
  windows : ∀ w ∈ s.live, call ≠ .mmioUnmap w → ∀ i < w.size.toNat,
    lookup s'.kernel.vmm.mem s'.kernel.currentPml4 (w.virt + BitVec.ofNat 64 i) =
      lookup s.kernel.vmm.mem s.kernel.currentPml4 (w.virt + BitVec.ofNat 64 i)
  identity : ∀ v : BitVec 64, v.toNat < 2^47 →
    lookup s'.kernel.vmm.mem s'.kernel.currentPml4 v = lookup s.kernel.vmm.mem s.kernel.currentPml4 v
  kernel : ∀ v : BitVec 64, 0xFFFFFFFF80100000 ≤ v.toNat → v.toNat < 0xFFFFFFFF80100000 + 0x400000 →
    lookup s'.kernel.vmm.mem s'.kernel.currentPml4 v = lookup s.kernel.vmm.mem s.kernel.currentPml4 v

end Mmio

variable {alloc : AllocateBlock σ} {avail : σ → Nat → Prop} {k : Kernel σ} {root : Nat}
  {virt : BitVec 64} {n : Nat}

/-! The loops, by page numbers. -/

theorem pageAddr_add (i j : Nat) : pageAddr i + pageAddr j = pageAddr (i + j) := by
  rw [pageAddr, pageAddr, pageAddr, Nat.mul_add, BitVec.ofNat_add]

theorem pageOf_pageAddr_mod (i : Nat) : pageOf (pageAddr i) = i % 2^36 := by
  rw [pageOf, pageAddr, BitVec.toNat_ofNat]
  omega

theorem offset_toNat (a : BitVec 64) : (a - (a &&& ~~~0xFFF#64)).toNat = a.toNat % 4096 := by
  have hlt := a.isLt
  rw [and_not_offset, BitVec.toNat_sub, pageAddr_toNat (by omega)]
  omega

/-- The number of pages, if the sum does not overflow. -/
theorem pages_eq {a size : BitVec 64} (hsize : size.toNat ≤ 2^52) :
    (size + (a - (a &&& ~~~0xFFF#64)) + 4095#64).toNat / 4096 = spanPages a size := by
  have hsum : (size + (a - (a &&& ~~~0xFFF#64)) + 4095#64).toNat = size.toNat + a.toNat % 4096 + 4095 := by
    rw [BitVec.toNat_add, BitVec.toNat_add, offset_toNat]
    have h4095 : (4095#64).toNat = 4095 := rfl
    rw [h4095]
    omega
  rw [hsum, spanPages, Nat.add_comm size.toNat]

namespace Kernel

theorem unmapPages_ok (hok : k.vmm.Ok avail root) (virt : BitVec 64) (n : Nat) :
    (k.unmapPages alloc root virt n).vmm.Ok avail root := by
  induction n generalizing k virt with
  | zero => exact hok
  | succ n ih => exact ih (vmmUnmap_lookup alloc hok virt).1 _

theorem unmapPages_fields (alloc : AllocateBlock σ) (k : Kernel σ) (root : Nat) (virt : BitVec 64) (n : Nat) :
    (k.unmapPages alloc root virt n).currentPml4 = k.currentPml4 ∧
      (k.unmapPages alloc root virt n).mmioVirtNext = k.mmioVirtNext := by
  induction n generalizing k virt with
  | zero => exact ⟨rfl, rfl⟩
  | succ n ih => exact ih _ _

theorem unmapPages_outside (hok : k.vmm.Ok avail root) (virt : BitVec 64) {n : Nat} {w : BitVec 64}
    (hw : ∀ i < n, pageOf w ≠ pageOf (virt + pageAddr i)) :
    lookup (k.unmapPages alloc root virt n).vmm.mem root w = lookup k.vmm.mem root w := by
  induction n generalizing k virt with
  | zero => rfl
  | succ n ih =>
    obtain ⟨hok', hpages⟩ := vmmUnmap_lookup alloc hok virt
    have hfirst : lookup (k.vmm.vmmUnmap alloc root virt).mem root w = lookup k.vmm.mem root w := by
      refine (hpages w).trans (if_neg fun hpage => hw 0 (by omega) ?_)
      rw [hpage, pageAddr, Nat.mul_zero, BitVec.add_zero]
    refine (ih (k := { k with vmm := k.vmm.vmmUnmap alloc root virt }) hok' _ fun i hi => ?_).trans hfirst
    rw [← add_pageAddr_succ]
    exact hw (i + 1) (by omega)

/-- `mmio_map` moves on by the pages of the window, also when it fails, and changes these pages only. -/
theorem mmioMap_spec (ha : FreshBlocks alloc avail) (hok : k.vmm.Ok avail k.currentPml4)
    (hactive : k.currentPml4 ≠ 0)
    {phys size : BitVec 64} (hsize : size.toNat ≤ 2^52) {next : Nat} (hnext : k.mmioVirtNext = pageAddr next)
    (hfew : spanPages phys size ≤ 2^36) :
    let r := k.mmioMap alloc phys size
    r.2.vmm.Ok avail k.currentPml4 ∧ r.2.currentPml4 = k.currentPml4 ∧
      r.2.mmioVirtNext = pageAddr (next + spanPages phys size) ∧
      (∀ v, (∀ i < spanPages phys size, pageOf v ≠ pageOf (pageAddr (next + i))) →
        lookup r.2.vmm.mem k.currentPml4 v = lookup k.vmm.mem k.currentPml4 v) ∧
      (r.1 ≠ 0#64 → r.1 = pageAddr next + (phys - (phys &&& ~~~0xFFF#64)) ∧ ∀ i < spanPages phys size,
        lookup r.2.vmm.mem k.currentPml4 (pageAddr (next + i)) =
        some (pteGetPhys (pageAddr (phys.toNat / 4096 + i)))) := by
  unfold mmioMap
  rw [if_neg hactive]
  dsimp only
  rw [pages_eq hsize, and_not_offset phys, hnext]
  generalize spanPages phys size = n at hfew ⊢
  have hmoved : pageAddr next + BitVec.ofNat 64 (n * 4096) = pageAddr (next + n) := by
    rw [← pageAddr_add, pageAddr, pageAddr, Nat.mul_comm n]
  rw [hmoved]
  have hok₀ : ({ k with mmioVirtNext := pageAddr (next + n) } : Kernel σ).vmm.Ok avail k.currentPml4 := hok
  have hgrows := mapPages_grows ha hok₀ (pageAddr (phys.toNat / 4096)) (pageAddr next)
    (ptePresent ||| pteWritable ||| pteCacheDisable) n
  have hfields := (mapPages_fields alloc ({ k with mmioVirtNext := pageAddr (next + n) } : Kernel σ)
    k.currentPml4
    (pageAddr (phys.toNat / 4096)) (pageAddr next) (ptePresent ||| pteWritable ||| pteCacheDisable) n).2.1
  have hvirt := mapPages_mmioVirtNext alloc ({ k with mmioVirtNext := pageAddr (next + n) } : Kernel σ)
    k.currentPml4
    (pageAddr (phys.toNat / 4096)) (pageAddr next) (ptePresent ||| pteWritable ||| pteCacheDisable) n
  have houtside := fun v => mapPages_outside ha hok₀ (pageAddr (phys.toNat / 4096)) (pageAddr next)
    (ptePresent ||| pteWritable ||| pteCacheDisable) (n := n) (w := v)
  have hinside := fun i => mapPages_inside ha hok₀ (pageAddr (phys.toNat / 4096)) (pageAddr next)
    (ptePresent ||| pteWritable ||| pteCacheDisable) (i := i) hfew
  simp only [pageAddr_add] at houtside hinside
  rcases hloop : ({ k with mmioVirtNext := pageAddr (next + n) } : Kernel σ).mapPages alloc k.currentPml4
    (pageAddr (phys.toNat / 4096)) (pageAddr next) (ptePresent ||| pteWritable ||| pteCacheDisable)
      n with ⟨done, k₁⟩
  rw [hloop] at hgrows hfields hvirt houtside hinside
  cases done with
  | false => exact ⟨hgrows.ok, hfields, hvirt, houtside, fun hne => absurd rfl hne⟩
  | true => exact ⟨hgrows.ok, hfields, hvirt, houtside, fun _ => ⟨rfl, fun i hi => hinside i hi rfl⟩⟩

/-- `mmio_unmap` changes the pages of the window only. -/
theorem mmioUnmap_spec (alloc : AllocateBlock σ) (hok : k.vmm.Ok avail k.currentPml4)
    (hactive : k.currentPml4 ≠ 0)
    (virt : BitVec 64) {size : BitVec 64} (hsize : size.toNat ≤ 2^52) :
    let r := k.mmioUnmap alloc virt size
    r.2.vmm.Ok avail k.currentPml4 ∧ r.2.currentPml4 = k.currentPml4 ∧ r.2.mmioVirtNext = k.mmioVirtNext ∧
      ∀ v, (∀ i < spanPages virt size, pageOf v ≠ pageOf (pageAddr (virt.toNat / 4096 + i))) →
        lookup r.2.vmm.mem k.currentPml4 v = lookup k.vmm.mem k.currentPml4 v := by
  unfold mmioUnmap
  rw [if_neg hactive]
  dsimp only
  rw [pages_eq hsize, and_not_offset virt]
  obtain ⟨hroot, hnext⟩ :=
    unmapPages_fields alloc k k.currentPml4 (pageAddr (virt.toNat / 4096)) (spanPages virt size)
  refine ⟨unmapPages_ok hok _ _, hroot, hnext, fun v hv => unmapPages_outside hok _ fun i hi => ?_⟩
  rw [pageAddr_add]
  exact hv i hi

end Kernel

/-! Page numbers in the area of the windows. -/

def mmioPage : Nat := mmioVirtBase / 4096

theorem pageAddr_mmioPage : pageAddr mmioPage = 0xFFFFFFFF90000000#64 := by
  apply BitVec.eq_of_toNat_eq
  rw [pageAddr, BitVec.toNat_ofNat]
  decide

theorem mmioPage_le : mmioPage ≤ 2^52 := by decide

theorem pageOf_area {i : Nat} (hlow : mmioPage ≤ i) (hhigh : i < 2^52) :
    pageOf (pageAddr i) + (2^52 - 2^36) = i := by
  rw [pageOf_pageAddr_mod]
  unfold mmioPage mmioVirtBase at hlow
  omega

theorem pageOf_byte {a : BitVec 64} {i : Nat} (h : a.toNat + i < 2^64) :
    pageOf (a + BitVec.ofNat 64 i) = pageOf (pageAddr ((a.toNat + i) / 4096)) := by
  rw [pageOf_pageAddr_mod, pageOf, BitVec.toNat_add, BitVec.toNat_ofNat]
  omega

/-- The pages below the area are not in it. -/
theorem pageOf_below {v : BitVec 64} {i : Nat} (hlow : mmioPage ≤ i) (hhigh : i < 2^52)
    (hv : v.toNat < 2^47 ∨ 0xFFFFFFFF80100000 ≤ v.toNat ∧ v.toNat < 0xFFFFFFFF80100000 + 0x400000) :
    pageOf v ≠ pageOf (pageAddr i) := by
  have harea := pageOf_area hlow hhigh
  unfold mmioPage mmioVirtBase at hlow
  rw [pageOf]
  omega

/-- The address that `mmio_map` returns does not wrap around. -/
theorem returned_toNat {phys size : BitVec 64} {next : Nat} (hroom : next + spanPages phys size ≤ 2^52)
    (hne : pageAddr next + (phys - (phys &&& ~~~0xFFF#64)) ≠ 0#64) :
    (pageAddr next + (phys - (phys &&& ~~~0xFFF#64))).toNat = 4096 * next + phys.toNat % 4096 := by
  have hsum : (pageAddr next + (phys - (phys &&& ~~~0xFFF#64))).toNat =
    (4096 * next + phys.toNat % 4096) % 2^64 := by
    rw [BitVec.toNat_add, offset_toNat, pageAddr, BitVec.toNat_ofNat]
    omega
  by_cases hfull : next = 2^52
  · -- no page is left, so that nothing was asked for
    exfalso
    apply hne
    apply BitVec.eq_of_toNat_eq
    rw [hsum, hfull]
    unfold spanPages at hroom
    have hzero : (0#64).toNat = 0 := rfl
    rw [hzero]
    omega
  · omega

namespace Window

def first (w : Window) : Nat := w.virt.toNat / 4096
def pages (w : Window) : Nat := spanPages w.phys w.size

/-- Where a returned window is: in the area, in front of `next`. -/
structure Placed (w : Window) (next : Nat) : Prop where
  low : mmioPage ≤ w.first
  high : w.first + w.pages ≤ next
  offset : w.virt.toNat % 4096 = w.phys.toNat % 4096
  bound : w.phys.toNat + w.size.toNat ≤ 2^52

/-- The pages of the one are in front of those of the other. -/
def Separate (w w' : Window) : Prop := w'.first + w'.pages ≤ w.first ∨ w.first + w.pages ≤ w'.first

variable {w w' : Window} {next i : Nat}

instance : Std.Symm Separate := ⟨fun _ _ => Or.symm⟩

theorem Placed.mono {next' : Nat} (h : w.Placed next) (hle : next ≤ next') : w.Placed next' :=
  ⟨h.low, Nat.le_trans h.high hle, h.offset, h.bound⟩

/-- The window that `mmio_map` returns begins at the first page that was not handed out. -/
theorem placed_of_returned {virt phys size : BitVec 64} (hphys : phys.toNat + size.toNat ≤ 2^52)
    (hmin : mmioPage ≤ next)
    (hroom : next + spanPages phys size ≤ 2^52)
    (hvirt : virt = pageAddr next + (phys - (phys &&& ~~~0xFFF#64))) (hne : virt ≠ 0#64) :
    (mk virt phys size).first = next ∧ (mk virt phys size).Placed (next + spanPages phys size) := by
  have hnat : virt.toNat = 4096 * next + phys.toNat % 4096 := by
    rw [hvirt] at hne ⊢
    exact returned_toNat hroom hne
  have hfirst : virt.toNat / 4096 = next := by omega
  refine ⟨hfirst, Nat.le_trans hmin (Nat.le_of_eq hfirst.symm), ?_,
    show virt.toNat % 4096 = phys.toNat % 4096 by omega, hphys⟩
  exact Nat.le_of_eq (congrArg (· + spanPages phys size) hfirst)

/-- The page of a byte of the window. -/
theorem Placed.byte (h : w.Placed next) (hnext : next ≤ 2^52) (hi : i < w.size.toNat) :
    ∃ j < w.pages, pageOf (w.virt + BitVec.ofNat 64 i) = pageOf (pageAddr (w.first + j)) ∧
      (w.phys.toNat + i) / 4096 = w.phys.toNat / 4096 + j ∧
      (w.virt + BitVec.ofNat 64 i).toNat = w.virt.toNat + i := by
  have hhigh := h.high
  have hoffset := h.offset
  have hbound := h.bound
  have hlow := h.low
  unfold first pages spanPages at *
  have hfit : w.virt.toNat + i < 2^64 := by omega
  refine ⟨(w.phys.toNat % 4096 + i) / 4096, by omega, ?_, by omega, ?_⟩
  · have heq : w.virt.toNat / 4096 + (w.phys.toNat % 4096 + i) / 4096 = (w.virt.toNat + i) / 4096 := by omega
    rw [pageOf_byte hfit, heq]
  · rw [BitVec.toNat_add, BitVec.toNat_ofNat]
    omega

/-- Separate windows have no page in common. -/
theorem Separate.page_ne (h : w.Separate w') (hp : w.Placed next) (hp' : w'.Placed next)
    (hnext : next ≤ 2^52) {i j : Nat}
    (hi : i < w.pages) (hj : j < w'.pages) : pageOf (pageAddr (w.first + i)) ≠
      pageOf (pageAddr (w'.first + j)) := by
  have hhigh := hp.high
  have hhigh' := hp'.high
  have h₁ := pageOf_area (i := w.first + i) (Nat.le_trans hp.low (Nat.le_add_right _ _)) (by omega)
  have h₂ := pageOf_area (i := w'.first + j) (Nat.le_trans hp'.low (Nat.le_add_right _ _)) (by omega)
  unfold Separate at h
  omega

end Window

namespace Mmio
variable {s s' : Mmio σ} {call : MmioCall}

/-- The first page that was not handed out. -/
def next (s : Mmio σ) : Nat := mmioPage + s.taken

/-- The returned windows lie one after the other in the area, and those that are
live are mapped page by page. -/
structure Inv (avail : σ → Nat → Prop) (s : Mmio σ) : Prop where
  ok : s.kernel.vmm.Ok avail s.kernel.currentPml4
  active : s.kernel.currentPml4 ≠ 0
  virtNext : s.kernel.mmioVirtNext = pageAddr s.next
  room : s.next ≤ 2^52
  placed : ∀ w ∈ s.returned, w.Placed s.next
  separate : s.returned.Pairwise Window.Separate
  returned : ∀ w ∈ s.live, w ∈ s.returned
  mapped : ∀ w ∈ s.live, ∀ i < w.pages, lookup s.kernel.vmm.mem s.kernel.currentPml4 (pageAddr (w.first + i)) =
    some (4096 * (w.phys.toNat / 4096 + i))

namespace Inv

/-- The pages that are not handed out are in no window. -/
theorem fresh_page (h : s.Inv avail) {w : Window} (hw : w ∈ s.returned) {i j : Nat} (hi : i < w.pages)
    (hj : s.next + j < 2^52) : pageOf (pageAddr (w.first + i)) ≠ pageOf (pageAddr (s.next + j)) := by
  have hp := h.placed w hw
  have hlow := hp.low
  have hhigh := hp.high
  have h₁ := pageOf_area (i := w.first + i) (by omega) (by omega)
  have h₂ := pageOf_area (i := s.next + j)
    (Nat.le_trans (Nat.le_add_right mmioPage s.taken) (Nat.le_add_right _ _)) hj
  omega

/-- Nor is a page of one window in another. -/
theorem other_page (h : s.Inv avail) {w w' : Window} (hw : w ∈ s.returned) (hw' : w' ∈ s.returned)
    (hne : w ≠ w') {i j : Nat}
    (hi : i < w.pages) (hj : j < w'.pages) : pageOf (pageAddr (w.first + i)) ≠
      pageOf (pageAddr (w'.first + j)) := by
  have hsep : w.Separate w' := h.separate.forall hw hw' hne
  exact hsep.page_ne (h.placed w hw) (h.placed w' hw') h.room hi hj

theorem window_mapped (h : s.Inv avail) {w : Window} (hw : w ∈ s.live) : w.Mapped s.kernel := by
  intro i hi
  obtain ⟨j, hj, hpage, hphys, haddr⟩ := (h.placed w (h.returned w hw)).byte h.room hi
  have hoffset := (h.placed w (h.returned w hw)).offset
  refine ⟨?_, by omega⟩
  rw [lookup_congr _ _ hpage, h.mapped w hw j hj, hphys, Nat.mul_comm]

theorem windows_apart (h : s.Inv avail) : s.returned.Pairwise Window.Apart := by
  refine h.separate.imp_of_mem fun {w w'} hw hw' hsep i hi j hj heq => ?_
  have hp := h.placed w hw
  have hp' := h.placed w' hw'
  obtain ⟨i', hi', hpage, -⟩ := hp.byte h.room hi
  obtain ⟨j', hj', hpage', -⟩ := hp'.byte h.room hj
  rw [hpage, hpage'] at heq
  exact hsep.page_ne hp hp' h.room hi' hj' heq

/-- A page in no window that is handed out or given back. -/
private theorem keeps_of_lookup (h : s.Inv avail) (hroot : s'.kernel.currentPml4 = s.kernel.currentPml4)
    {first n : Nat}
    (hlow : mmioPage ≤ first) (hhigh : first + n ≤ 2^52)
    (hpages : ∀ v, (∀ i < n, pageOf v ≠ pageOf (pageAddr (first + i))) →
      lookup s'.kernel.vmm.mem s.kernel.currentPml4 v = lookup s.kernel.vmm.mem s.kernel.currentPml4 v)
    (hwindows : ∀ w ∈ s.live, call ≠ .mmioUnmap w → ∀ i < w.pages, ∀ j < n,
      pageOf (pageAddr (w.first + i)) ≠ pageOf (pageAddr (first + j))) : s.Keeps call s' := by
  constructor
  · intro w hw hcall i hi
    obtain ⟨j, hj, hpage, -⟩ := (h.placed w (h.returned w hw)).byte h.room hi
    rw [hroot]
    refine hpages _ fun i' hi' => ?_
    rw [hpage]
    exact hwindows w hw hcall j hj i' hi'
  · intro v hv
    rw [hroot]
    exact hpages v fun i hi => pageOf_below (by omega) (by omega) (.inl hv)
  · intro v hlo hhi
    rw [hroot]
    exact hpages v fun i hi => pageOf_below (by omega) (by omega) (.inr ⟨hlo, hhi⟩)

/-- Pages are handed out. -/
theorem moved (h : s.Inv avail) {k' : Kernel σ} {n : Nat} (hok : k'.vmm.Ok avail s.kernel.currentPml4)
    (hroot : k'.currentPml4 = s.kernel.currentPml4) (hnext : k'.mmioVirtNext = pageAddr (s.next + n))
    (hroom : s.next + n ≤ 2^52)
    (hold : ∀ w ∈ s.live, ∀ i < w.pages,
      lookup k'.vmm.mem s.kernel.currentPml4 (pageAddr (w.first + i)) =
      some (4096 * (w.phys.toNat / 4096 + i))) :
    ({ s with kernel := k', taken := s.taken + n } : Mmio σ).Inv avail := by
  have hnext' : ({ s with kernel := k', taken := s.taken + n } : Mmio σ).next = s.next + n :=
    (Nat.add_assoc _ _ _).symm
  constructor
  · exact hroot ▸ hok
  · exact hroot ▸ h.active
  · rw [hnext']
    exact hnext
  · rw [hnext']
    exact hroom
  · rw [hnext']
    exact fun w hw => (h.placed w hw).mono (Nat.le_add_right _ _)
  · exact h.separate
  · exact h.returned
  · exact hroot ▸ hold

/-- A window is returned. -/
theorem cons (h : s.Inv avail) {w : Window} (hp : w.Placed s.next) (hsep : ∀ w' ∈ s.returned, w.Separate w')
    (hpages : ∀ i < w.pages, lookup s.kernel.vmm.mem s.kernel.currentPml4 (pageAddr (w.first + i)) =
      some (4096 * (w.phys.toNat / 4096 + i))) :
    ({ s with returned := w :: s.returned, live := w :: s.live } : Mmio σ).Inv avail := by
  constructor
  · exact h.ok
  · exact h.active
  · exact h.virtNext
  · exact h.room
  · exact List.forall_mem_cons.mpr ⟨hp, h.placed⟩
  · exact List.pairwise_cons.mpr ⟨hsep, h.separate⟩
  · exact List.forall_mem_cons.mpr ⟨List.mem_cons_self, fun w' hw' =>
      List.mem_cons_of_mem _ (h.returned w' hw')⟩
  · exact List.forall_mem_cons.mpr ⟨hpages, h.mapped⟩

theorem mmioMap (ha : FreshBlocks alloc avail) (h : s.Inv avail) {phys size : BitVec 64}
    (hallowed : s.Allowed (.mmioMap phys size)) :
    (s.exec alloc (.mmioMap phys size)).Inv avail ∧
    s.Keeps (.mmioMap phys size) (s.exec alloc (.mmioMap phys size)) := by
  obtain ⟨hphys, hfits⟩ := hallowed
  have hbase : mmioPage * 4096 = mmioVirtBase := rfl
  have hroom : s.next + spanPages phys size ≤ 2^52 := by
    unfold next
    omega
  have hmin : mmioPage ≤ s.next := Nat.le_add_right _ _
  have hfew : spanPages phys size ≤ 2^36 := by
    unfold mmioPage mmioVirtBase at hmin
    omega
  obtain ⟨hok, hroot, hnext, hother, hnew⟩ := Kernel.mmioMap_spec ha h.ok h.active (by omega) h.virtNext hfew
  have hfresh : ∀ w ∈ s.live, ∀ i < w.pages, ∀ j < spanPages phys size,
      pageOf (pageAddr (w.first + i)) ≠ pageOf (pageAddr (s.next + j)) := fun w hw i hi j hj =>
    h.fresh_page (h.returned w hw) hi (by omega)
  have hmoved := h.moved hok hroot hnext hroom fun w hw i hi =>
    (hother _ fun j hj => hfresh w hw i hi j hj).trans (h.mapped w hw i hi)
  unfold exec
  dsimp only
  split
  · exact ⟨hmoved, keeps_of_lookup h hroot hmin hroom hother fun w hw _ => hfresh w hw⟩
  · next hne =>
    obtain ⟨hvirt, hpages⟩ := hnew hne
    obtain ⟨hfirst, hplaced⟩ := Window.placed_of_returned hphys hmin hroom hvirt hne
    refine ⟨hmoved.cons ?_ (fun w hw => .inl ?_) fun i hi => ?_,
      keeps_of_lookup h hroot hmin hroom hother fun w hw _ => hfresh w hw⟩
    · exact hplaced.mono (Nat.le_of_eq (Nat.add_assoc _ _ _))
    · rw [hfirst]
      exact (h.placed w hw).high
    · rw [hfirst]
      have hi : i < spanPages phys size := hi
      have hframe : phys.toNat / 4096 + i < 2^40 := by
        unfold spanPages at hi
        omega
      exact hroot ▸ (hpages i hi).trans (congrArg some (pteGetPhys_pageAddr hframe))

theorem mmioUnmap (h : s.Inv avail) {w : Window} (hallowed : s.Allowed (.mmioUnmap w)) :
    (s.exec alloc (.mmioUnmap w)).Inv avail ∧ s.Keeps (.mmioUnmap w) (s.exec alloc (.mmioUnmap w)) := by
  have hw : w ∈ s.returned := hallowed
  have hp := h.placed w hw
  have hspan : spanPages w.virt w.size = w.pages := by rw [Window.pages, spanPages, spanPages, hp.offset]
  have hsize : w.size.toNat ≤ 2^52 := Nat.le_trans (Nat.le_add_left _ _) hp.bound
  obtain ⟨hok, hroot, hnext, hother⟩ := Kernel.mmioUnmap_spec alloc h.ok h.active w.virt hsize
  rw [hspan] at hother
  have hapart : ∀ w' ∈ s.live, w' ≠ w → ∀ i < w'.pages, ∀ j < w.pages,
      pageOf (pageAddr (w'.first + i)) ≠ pageOf (pageAddr (w.first + j)) := fun w' hw' hne i hi j hj =>
    h.other_page (h.returned w' hw') hw hne hi hj
  constructor
  · constructor
    · rw [exec, hroot]
      exact hok
    · rw [exec, hroot]
      exact h.active
    · exact hnext.trans h.virtNext
    · exact h.room
    · exact h.placed
    · exact h.separate
    · exact fun w' hw' => h.returned w' (List.mem_of_mem_filter hw')
    · intro w' hw' i hi
      obtain ⟨hlive, hne⟩ := List.mem_filter.mp hw'
      rw [exec, hroot]
      exact (hother _ fun j hj => hapart w' hlive (of_decide_eq_true hne) i hi j hj).trans
        (h.mapped w' hlive i hi)
  · exact keeps_of_lookup h hroot hp.low (Nat.le_trans hp.high h.room) hother fun w' hw' hcall =>
    hapart w' hw' fun heq => hcall (by rw [heq])

/-- Every call. -/
theorem exec (ha : FreshBlocks alloc avail) (h : s.Inv avail) (hallowed : s.Allowed call) :
    (s.exec alloc call).Inv avail ∧ s.Keeps call (s.exec alloc call) := by
  cases call with
  | mmioMap phys size => exact h.mmioMap ha hallowed
  | mmioUnmap w => exact h.mmioUnmap hallowed

end Inv

theorem inv_start (ha : FreshBlocks alloc avail) (hpos : ∀ a f, avail a f → f ≠ 0)
    {fb : Framebuffer} {b : Vmm σ}
    (hboot : Kernel.booted alloc fb b = some k) : (start k).Inv avail := by
  obtain ⟨f, a, hal, hroot, hnext, hgrows⟩ := Kernel.booted_grows ha hboot
  constructor
  · exact hroot ▸ hgrows.ok
  · exact hroot ▸ hpos _ _ (ha.fresh _ _ _ hal).1
  · exact hnext.trans (pageAddr_mmioPage.symm.trans (congrArg pageAddr (Nat.add_zero _).symm))
  · exact Nat.le_trans (Nat.le_of_eq (Nat.add_zero _)) mmioPage_le
  · exact List.forall_mem_nil _
  · exact .nil
  · exact List.forall_mem_nil _
  · exact List.forall_mem_nil _

end Mmio

variable {fb : Framebuffer} {b : Vmm Bitmap} {k : Kernel Bitmap} {calls : List MmioCall} {s : Mmio Bitmap}

/-- After any run of calls behind `vmm_init`, each live window shows its device,
no two returned windows share a page, and the next call leaves everything else as it is. -/
theorem mmio_windows_correct (hboot : Kernel.booted allocateBlock fb b = some k)
    (hrun : Run (fun s call s' => s.Allowed call ∧ s.exec allocateBlock call = s') (Mmio.start k) calls s) :
    (∀ w ∈ s.live, w.Mapped s.kernel) ∧ s.returned.Pairwise Window.Apart ∧
      ∀ call, s.Allowed call → s.Keeps call (s.exec allocateBlock call) := by
  have hinv : s.Inv Bitmap.Free := by
    apply hrun.invariant (Mmio.Inv Bitmap.Free)
    · rintro s call s' h ⟨hallowed, rfl⟩
      exact (h.exec Bitmap.lowBlocks.toFreshBlocks hallowed).1
    · exact Mmio.inv_start Bitmap.lowBlocks.toFreshBlocks (fun _ _ hf => hf.1) hboot
  exact ⟨fun w hw => hinv.window_mapped hw, hinv.windows_apart, fun call hallowed =>
    (hinv.exec Bitmap.lowBlocks.toFreshBlocks hallowed).2⟩

/-- A window whose pages are all in one table is returned if there are blocks for it,
of which it takes at most three. -/
theorem Mmio.exec_mmioMap {left : σ → Nat} {s : Mmio σ} (ha : FreshBlocks alloc avail) (h : s.Inv avail)
    (hs : Supply alloc left) (hleft : 3 < left s.kernel.vmm.phys) {phys size : BitVec 64} {w : Window}
    {first : Nat} (hallowed : s.Allowed (.mmioMap phys size)) (hfirst : s.next = first)
    (hw : w = ⟨pageAddr first + (phys - (phys &&& ~~~0xFFF#64)), phys, size⟩) (hne : w.virt ≠ 0#64)
    (hsame : ∀ i < spanPages phys size, pathOf (pageAddr first + pageAddr i) = pathOf (pageAddr first)) :
    (s.exec alloc (.mmioMap phys size)).taken = s.taken + spanPages phys size ∧
      (s.exec alloc (.mmioMap phys size)).returned = w :: s.returned ∧
      (s.exec alloc (.mmioMap phys size)).live = w :: s.live ∧
      left s.kernel.vmm.phys ≤ left (s.exec alloc (.mmioMap phys size)).kernel.vmm.phys + 3 := by
  subst hfirst
  have hsize : size.toNat ≤ 2^52 := Nat.le_trans (Nat.le_add_left _ _) hallowed.1
  have hchunk := Kernel.mapPages_chunk
    (k := { s.kernel with mmioVirtNext := s.kernel.mmioVirtNext + BitVec.ofNat 64 (spanPages phys
      size * 4096) })
    ha h.ok hs hleft (phys &&& ~~~0xFFF#64) (pageAddr s.next)
      (ptePresent ||| pteWritable ||| pteCacheDisable) hsame
  obtain ⟨hdone, hcount, -⟩ := hchunk
  have hspare := hcount left hs.le
  have hmap : (s.kernel.mmioMap alloc phys size).1 = w.virt ∧
      left s.kernel.vmm.phys ≤ left (s.kernel.mmioMap alloc phys size).2.vmm.phys + 3 := by
    unfold Kernel.mmioMap
    rw [if_neg h.active]
    dsimp only
    rw [pages_eq hsize, h.virtNext] at *
    split
    · next hloop =>
      rw [hloop] at hdone
      cases hdone
    · next hloop =>
      rw [hloop] at hspare
      exact ⟨by rw [hw], hspare⟩
  unfold Mmio.exec
  dsimp only
  rw [hmap.1, if_neg hne]
  exact ⟨rfl, by rw [hw], by rw [hw], hmap.2⟩

/-- Registers that are not aligned to a page, a second window, and the first one
taken back, on the machine with 256 MiB. -/
theorem mmio_windows_correct_unmapped : ∃ k s w w', Kernel.booted allocateBlock headless bootVmm = some k ∧
    Run (fun s call s' => s.Allowed call ∧ s.exec allocateBlock call = s') (Mmio.start k)
      [.mmioMap 0xFED00234#64 0x2000#64, .mmioMap 0xFEC00010#64 0x10#64, .mmioUnmap w] s ∧
    w = ⟨0xFFFFFFFF90000234#64, 0xFED00234#64, 0x2000#64⟩ ∧
    w' = ⟨0xFFFFFFFF90003010#64, 0xFEC00010#64, 0x10#64⟩ ∧
    s.live = [w'] ∧ w'.Mapped s.kernel ∧ w'.Apart w := by
  obtain ⟨k, hboot, hleft, -⟩ := boot256_booted
  have ha := Bitmap.lowBlocks.toFreshBlocks
  have hstart := Mmio.inv_start ha (fun _ _ hf => hf.1) hboot
  have hfirst : (Mmio.start k).Allowed (.mmioMap 0xFED00234#64 0x2000#64) :=
    ⟨by decide, (by decide : mmioVirtBase + 4096 * (0 + spanPages 0xFED00234#64 0x2000#64) ≤ 2^64)⟩
  obtain ⟨htaken₁, hreturned₁, hlive₁, hleft₁⟩ := Mmio.exec_mmioMap ha hstart Bitmap.supply
    (show 3 < Bitmap.left k.vmm.phys by omega) (w := ⟨0xFFFFFFFF90000234#64, 0xFED00234#64, 0x2000#64⟩)
    hfirst (show (Mmio.start k).next = mmioPage from Nat.add_zero _) (by decide) (by decide) (by decide)
  have hinv₁ := (hstart.exec ha hfirst).1
  generalize hs₁ : (Mmio.start k).exec allocateBlock (.mmioMap 0xFED00234#64 0x2000#64) = s₁ at *
  have hthree : s₁.taken = 3 := htaken₁
  have hsecond : s₁.Allowed (.mmioMap 0xFEC00010#64 0x10#64) := by
    refine ⟨by decide, ?_⟩
    rw [hthree]
    decide
  have hleft₁ : Bitmap.left k.vmm.phys ≤ Bitmap.left s₁.kernel.vmm.phys + 3 := hleft₁
  obtain ⟨-, hreturned₂, hlive₂, -⟩ := Mmio.exec_mmioMap ha hinv₁ Bitmap.supply
    (by omega) (w := ⟨0xFFFFFFFF90003010#64, 0xFEC00010#64, 0x10#64⟩) hsecond
    (show s₁.next = mmioPage + 3 by rw [Mmio.next, hthree]) (by decide) (by decide) (by decide)
  generalize hs₂ : s₁.exec allocateBlock (.mmioMap 0xFEC00010#64 0x10#64) = s₂ at *
  have hthird : s₂.Allowed (.mmioUnmap ⟨0xFFFFFFFF90000234#64, 0xFED00234#64, 0x2000#64⟩) := by
    show _ ∈ s₂.returned
    rw [hreturned₂, hreturned₁]
    exact List.mem_cons_of_mem _ List.mem_cons_self
  have hlive : (s₂.exec allocateBlock (.mmioUnmap ⟨0xFFFFFFFF90000234#64, 0xFED00234#64, 0x2000#64⟩)).live =
      [⟨0xFFFFFFFF90003010#64, 0xFEC00010#64, 0x10#64⟩] := by
    show s₂.live.filter _ = _
    rw [hlive₂, hlive₁]
    rfl
  have hrun : Run (fun s call s' => s.Allowed call ∧ s.exec allocateBlock call = s') (Mmio.start k) _ _ :=
    .cons ⟨hfirst, hs₁⟩ (.cons ⟨hsecond, hs₂⟩ (.cons ⟨hthird, rfl⟩ (.nil _)))
  obtain ⟨hmapped, hapart, -⟩ := mmio_windows_correct hboot hrun
  have hreturned : (s₂.exec allocateBlock
    (.mmioUnmap ⟨0xFFFFFFFF90000234#64, 0xFED00234#64, 0x2000#64⟩)).returned = _ :=
    hreturned₂.trans (congrArg _ hreturned₁)
  rw [hreturned] at hapart
  refine ⟨k, _, _, _, hboot, hrun, rfl, rfl, hlive, hmapped _ ?_,
    (List.pairwise_cons.mp hapart).1 _ List.mem_cons_self⟩
  rw [hlive]
  exact List.mem_singleton.mpr rfl

end GeckoOS.Mem.Paging
