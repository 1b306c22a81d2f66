import GeckoOS.Lib.Runs
import GeckoOS.Mem.AddressForest
import GeckoOS.Mem.FrameSupply
import Mathlib.Order.Interval.Finset.Nat

/-! Every table frame stays reachable at its own address, as long as there are low
blocks for the tables and their pages are not mapped elsewhere. -/
namespace GeckoOS.Mem.Paging
open Lib
variable {σ : Type} {alloc : AllocateBlock σ} {avail : σ → Nat → Prop} {low : σ → Nat} {s s' : Vmm σ}
  {root : Nat} {whole : List Nat}

namespace Kernel
variable {k : Kernel σ} {phys virt flags : BitVec 64} {n : Nat}

/-- Every access so far was safe. -/
def AllSafe (alloc : AllocateBlock σ) (avail : σ → Nat → Prop) (low : σ → Nat) (k : Kernel σ) : Prop :=
  ∀ e ∈ k.events, e.Safe alloc avail low

/-- Every access so far reached its frames, and the active address space is one
of those that cover the frames of tables. -/
structure Kept (alloc : AllocateBlock σ) (avail : σ → Nat → Prop) (k : Kernel σ) (whole : List Nat) : Prop where
  covered : Covered avail k.vmm k.spaces whole
  active : k.currentPml4 ∈ whole
  events : ∀ e ∈ k.events, e.Reachable alloc

variable {k' : Kernel σ}

theorem AllSafe.of_subset (h : k'.AllSafe alloc avail low) (hsub : k.events ⊆ k'.events) :
    k.AllSafe alloc avail low :=
  fun e he => h e (hsub he)

namespace Kept
variable (ha : LowBlocks alloc avail low) (h : k.Kept alloc avail whole)
include ha h

theorem vmmMap (hsafe : (k.vmmMap alloc root phys virt flags).2.AllSafe alloc avail low) :
    (k.vmmMap alloc root phys virt flags).2.Kept alloc avail whole := by
  obtain ⟨hroot, hroom, hkept⟩ := hsafe ⟨k.vmm, k.currentPml4, k.spaces, .getPte root phys virt⟩
    (List.mem_append_right _ List.mem_cons_self)
  refine ⟨h.covered.vmmMap ha hroot hroom hkept flags, h.active, fun e he => ?_⟩
  rcases List.mem_append.mp he with hold | hnew
  · exact h.events e hold
  · rw [List.mem_singleton.mp hnew]
    exact h.covered.touched ha hroot hroom h.active

theorem mapPages (root : Nat) (phys virt flags : BitVec 64) (n : Nat)
    (hsafe : (k.mapPages alloc root phys virt flags n).2.AllSafe alloc avail low) :
    (k.mapPages alloc root phys virt flags n).2.Kept alloc avail whole := by
  induction n generalizing k phys virt with
  | zero => exact h
  | succ n ih =>
    rw [mapPages_succ] at hsafe ⊢
    split
    · next hdone =>
      rw [if_pos hdone] at hsafe
      have hsub := (mapPages_fields alloc (k.vmmMap alloc root phys virt flags).2 root (phys + 4096#64)
        (virt + 4096#64) flags n).2.2
      exact ih (h.vmmMap ha (hsafe.of_subset hsub)) _ _ hsafe
    · next hfail =>
      rw [if_neg hfail] at hsafe
      exact h.vmmMap ha hsafe

theorem mapShared {fb : Framebuffer} (hsafe : (k.mapShared alloc fb root).2.AllSafe alloc avail low) :
    (k.mapShared alloc fb root).2.Kept alloc avail whole := by
  unfold Kernel.mapShared at hsafe ⊢
  have hfirst := h.mapPages ha root 0#64 0#64 (ptePresent ||| pteWritable) (identityEnd / 4096)
  rcases hloop : k.mapPages alloc root 0#64 0#64 (ptePresent ||| pteWritable) (identityEnd / 4096) with ⟨b, k₁⟩
  rw [hloop] at hsafe hfirst
  cases b with
  | false => exact hfirst hsafe
  | true =>
    dsimp only at hsafe ⊢
    split
    · next hz =>
      rw [if_pos hz] at hsafe
      exact hfirst hsafe
    · next hz =>
      rw [if_neg hz] at hsafe
      exact (hfirst (hsafe.of_subset (mapPages_fields ..).2.2)).mapPages ha _ _ _ _ _ hsafe

theorem newAddressSpace (hsafe : (k.newAddressSpace alloc).2.AllSafe alloc avail low) :
    (k.newAddressSpace alloc).2.Kept alloc avail whole ∧
    (k.newAddressSpace alloc).1 ∈ (k.newAddressSpace alloc).2.spaces := by
  obtain ⟨hsome, hlow⟩ := hsafe ⟨k.vmm, k.currentPml4, k.spaces, .newAddressSpace⟩
    (List.mem_append_right _ List.mem_cons_self)
  rcases hal : alloc k.vmm.phys with ⟨r, a⟩
  dsimp only at hsome hlow
  rw [hal] at hsome
  obtain ⟨f, rfl⟩ := Option.ne_none_iff_exists'.mp hsome
  have hf : f < identityEnd := ha.first _ _ _ hal hlow
  have hav := (ha.fresh _ _ _ hal).1
  unfold Kernel.newAddressSpace Vmm.allocTable
  rw [hal]
  refine ⟨⟨h.covered.newSpace ha hal hf, h.active, fun e he => ?_⟩, List.mem_cons_self⟩
  rcases List.mem_append.mp he with hold | hnew
  · exact h.events e hold
  · rw [List.mem_singleton.mp hnew]
    intro x hx
    simp only [Event.touched, hal, Option.map_some, Option.toList_some, List.mem_singleton] at hx
    obtain ⟨hpos, hdvd⟩ := ha.frame _ _ hav
    rw [hx]
    exact selfMapped_of_translate hpos (h.covered.mapped _ h.active f ⟨hf, hpos, hdvd, .inl hav⟩)

omit ha in
/-- An address space with the identity map covers the frames of tables. -/
theorem cover (hroot : root ∈ k.spaces)
    (hall : ∀ j < identityEnd / 4096, translate k.vmm.mem root (pageAddr j) = 4096 * j) :
    k.Kept alloc avail (root :: whole) := by
  refine ⟨⟨h.covered.forest, h.covered.low, fun r hr => ?_, fun r hr f hf => ?_⟩,
    List.mem_cons_of_mem _ h.active, h.events⟩
  · rcases List.mem_cons.mp hr with rfl | hr
    · exact hroot
    · exact h.covered.subset r hr
  · rcases List.mem_cons.mp hr with rfl | hr
    · obtain ⟨j, rfl⟩ := hf.dvd
      have hlow := hf.low
      apply hall j
      unfold identityEnd at hlow ⊢
      omega
    · exact h.covered.mapped r hr f hf

theorem mapStack (hsafe : (k.mapStack alloc root).AllSafe alloc avail low) :
    (k.mapStack alloc root).Kept alloc avail whole := by
  have hmono : ∀ g, avail (alloc k.vmm.phys).2 g → avail k.vmm.phys g := fun g => ha.mono _ g
  have hrest : ({ k with vmm := { k.vmm with phys := (alloc k.vmm.phys).2 } } : Kernel σ).Kept alloc
    avail whole :=
    ⟨h.covered.shrink hmono, h.active, h.events⟩
  exact hrest.vmmMap ha hsafe

/-- Either the active address space stays, or the new one takes over. -/
theorem createProcess {fb : Framebuffer} (hfb : fb.addr.toNat / 4096 + fb.pages ≤ 2^36)
    {entryPoint entryTo dataPoint dataTo : BitVec 64}
    (hsafe : (k.createProcess alloc fb entryPoint entryTo dataPoint dataTo).2.AllSafe alloc avail low) :
    ∃ whole', (k.createProcess alloc fb entryPoint entryTo dataPoint dataTo).2.Kept alloc avail whole' := by
  unfold Kernel.createProcess at hsafe ⊢
  have h₀ := h.newAddressSpace ha
  rcases hnew : k.newAddressSpace alloc with ⟨pml4, k₀⟩
  rw [hnew] at hsafe h₀
  dsimp only at hsafe h₀ ⊢
  obtain ⟨hspaces, -, hsub₁⟩ := mapShared_fields alloc fb k₀ pml4
  have h₁ := fun hs => (h₀ (hs.of_subset hsub₁)).1.mapShared ha hs
  rcases hshared : k₀.mapShared alloc fb pml4 with ⟨b, k₁⟩
  rw [hshared] at hsafe h₁ hspaces hsub₁
  cases b with
  | false => exact ⟨whole, h₁ hsafe⟩
  | true =>
    -- from here on the new address space covers the tables
    have h₁' : k₁.AllSafe alloc avail low → k₁.Kept alloc avail (pml4 :: whole) := by
      intro hs
      obtain ⟨hkept, hmem⟩ := h₀ (hs.of_subset hsub₁)
      have hok := hkept.covered.forest.ok pml4 hmem
      refine (h₁ hs).cover (hspaces ▸ hmem) fun j hj => ?_
      have := mapShared_identity ha.toFreshBlocks hok hfb (by rw [hshared]) hj
      rwa [hshared] at this
    dsimp only at hsafe ⊢
    have hsub₂ := (mapPages_fields alloc k₁ pml4 entryPoint entryTo (ptePresent ||| pteWritable) 1).2.2
    have h₂ := fun hs => (h₁' (hs.of_subset hsub₂)).mapPages ha pml4 entryPoint entryTo
      (ptePresent ||| pteWritable) 1 hs
    rcases hentry : k₁.mapPages alloc pml4 entryPoint entryTo (ptePresent ||| pteWritable) 1 with ⟨b, k₂⟩
    rw [hentry] at hsafe h₂
    cases b with
    | false => exact ⟨_, h₂ hsafe⟩
    | true =>
      dsimp only at hsafe ⊢
      have hsub₃ := (mapPages_fields alloc k₂ pml4 dataPoint dataTo (ptePresent ||| pteWritable) 1).2.2
      have h₃ := fun hs => (h₂ (hs.of_subset hsub₃)).mapPages ha pml4 dataPoint dataTo
        (ptePresent ||| pteWritable) 1 hs
      rcases hdata : k₂.mapPages alloc pml4 dataPoint dataTo (ptePresent ||| pteWritable) 1 with ⟨b, k₃⟩
      rw [hdata] at hsafe h₃
      cases b with
      | false => exact ⟨_, h₃ hsafe⟩
      | true =>
        dsimp only at hsafe ⊢
        have h₄ : (({ k₃ with nextid := k₃.nextid + 1#32 } : Kernel σ).mapStack alloc pml4).AllSafe
          alloc avail low →
            (({ k₃ with nextid := k₃.nextid + 1#32 } : Kernel σ).mapStack alloc pml4).Kept alloc avail
              (pml4 :: whole) := by
          intro hs
          have hk₃ := h₃ (hs.of_subset (List.subset_append_left _ _))
          exact mapStack ha ⟨hk₃.covered, hk₃.active, hk₃.events⟩ hs
        refine ⟨pml4 :: whole, ?_⟩
        split
        · next hstay =>
          rw [if_pos hstay] at hsafe
          exact h₄ hsafe
        · next hswitch =>
          rw [if_neg hswitch] at hsafe
          have hk₄ := h₄ hsafe
          exact ⟨hk₄.covered, List.mem_cons_self, hk₄.events⟩

theorem mmioMap {phys size : BitVec 64} (hsafe : (k.mmioMap alloc phys size).2.AllSafe alloc avail low) :
    (k.mmioMap alloc phys size).2.Kept alloc avail whole := by
  unfold Kernel.mmioMap at hsafe ⊢
  split
  · exact h
  · next hz =>
    rw [if_neg hz] at hsafe
    dsimp only at hsafe ⊢
    generalize (size + (phys - (phys &&& ~~~0xFFF#64)) + 4095#64).toNat / 4096 = pages at hsafe ⊢
    have hrest : ({ k with mmioVirtNext := k.mmioVirtNext + BitVec.ofNat 64 (pages * 4096) } : Kernel
      σ).Kept alloc avail
        whole := ⟨h.covered, h.active, h.events⟩
    have hloop := hrest.mapPages ha k.currentPml4 (phys &&& ~~~0xFFF#64) k.mmioVirtNext
      (ptePresent ||| pteWritable ||| pteCacheDisable) pages
    rcases hmap : ({ k with mmioVirtNext := k.mmioVirtNext + BitVec.ofNat 64 (pages * 4096) } : Kernel
      σ).mapPages alloc
      k.currentPml4 (phys &&& ~~~0xFFF#64) k.mmioVirtNext
        (ptePresent ||| pteWritable ||| pteCacheDisable) pages with ⟨b, k₁⟩
    rw [hmap] at hsafe hloop
    cases b <;> exact hloop hsafe

/-- Every call. -/
theorem exec {fb : Framebuffer} (hfb : fb.addr.toNat / 4096 + fb.pages ≤ 2^36) {call : MapCall}
    (hsafe : (k.exec alloc fb call).AllSafe alloc avail low) : ∃ whole',
      (k.exec alloc fb call).Kept alloc avail whole' := by
  cases call with
  | vmmMap pml4 phys virt flags => exact ⟨whole, h.vmmMap ha hsafe⟩
  | mmioMap phys size => exact ⟨whole, h.mmioMap ha hsafe⟩
  | createProcess entryPoint entryTo dataPoint dataTo => exact h.createProcess ha hfb hsafe

end Kept

/-- What `vmm_init` leaves behind. -/
structure Initial (avail : σ → Nat → Prop) (k : Kernel σ) : Prop where
  spaces : k.spaces = [k.currentPml4]
  events : k.events = []
  ok : k.vmm.Ok avail k.currentPml4
  pos : ∀ p t, IsPath p → tableAt k.vmm.mem k.currentPml4 p = some t → t ≠ 0
  identity : ∀ j < identityEnd / 4096, translate k.vmm.mem k.currentPml4 (pageAddr j) = 4096 * j

/-- The first address space covers the tables, if its own are low. -/
theorem Initial.kept (h : Initial avail k)
    (hlow : ∀ p t, IsPath p → tableAt k.vmm.mem k.currentPml4 p = some t → t < identityEnd) :
    k.Kept alloc avail [k.currentPml4] := by
  have hmem : ∀ r ∈ k.spaces, r = k.currentPml4 := by
    rw [h.spaces]
    exact fun r hr => List.mem_singleton.mp hr
  refine ⟨⟨⟨fun r hr => hmem r hr ▸ h.ok, fun r hr r' hr' hne => ?_⟩, fun t ht => ?_, fun r hr =>
    ?_, fun r hr f hf => ?_⟩, List.mem_singleton.mpr rfl, fun e he => ?_⟩
  · exact absurd ((hmem r hr).trans (hmem r' hr').symm) hne
  · obtain ⟨r, hr, p, hp, ht⟩ := ht
    rw [hmem r hr] at ht
    exact ⟨hlow p t hp ht, h.pos p t hp ht⟩
  · rwa [h.spaces]
  · obtain ⟨j, rfl⟩ := hf.dvd
    have hj := hf.low
    rw [List.mem_singleton.mp hr]
    apply h.identity j
    unfold identityEnd at hj ⊢
    omega
  · rw [h.events] at he
    cases he

section boot
variable (ha : LowBlocks alloc avail low) {fb : Framebuffer} (hfb : fb.addr.toNat / 4096 + fb.pages ≤ 2^36)
include ha hfb

/-- The pages that `vmm_init` maps in a table `f` that was just cleared. -/
private theorem initial_mapped {f : Nat} {k₁ k₂ : Kernel σ} (hf : f ≠ 0) (hok : k.vmm.Ok avail f)
    (hspaces : k.spaces = [f])
    (hempty : ∀ p t, IsPath p → tableAt k.vmm.mem f p = some t → t = f)
    (h₁ : k.mapShared alloc fb f = (true, k₁))
    (h₂ : k₁.mapPages alloc f 0x100000#64 0xFFFFFFFF80100000#64 (ptePresent ||| pteWritable) (0x400000 / 4096) =
      (true, k₂)) : Initial avail { k₂ with currentPml4 := f, events := [] } := by
  have hg₁ := mapShared_grows ha.toFreshBlocks hok fb
  have hid := fun j => mapShared_identity ha.toFreshBlocks hok hfb (by rw [h₁]) (j := j)
  have hs₁ := (mapShared_fields alloc fb k f).1
  rw [h₁] at hg₁ hid hs₁
  have hg₂ := mapPages_grows ha.toFreshBlocks hg₁.ok 0x100000#64 0xFFFFFFFF80100000#64
    (ptePresent ||| pteWritable)
    (0x400000 / 4096)
  have hother := fun j (hj : j < identityEnd / 4096) => mapPages_other ha.toFreshBlocks hg₁.ok 0x100000#64
    0xFFFFFFFF80100000#64 (ptePresent ||| pteWritable) fun i hi => kernel_pages hi (lt_trans hj (by decide))
  have hs₂ :=
    (mapPages_fields alloc k₁ f 0x100000#64 0xFFFFFFFF80100000#64 (ptePresent ||| pteWritable)
    (0x400000 / 4096)).1
  rw [h₂] at hg₂ hother hs₂
  refine ⟨hs₂.trans (hs₁.trans hspaces), rfl, hg₂.ok, fun p t hp ht => ?_, fun j hj =>
    (hother j hj).trans (hid j hj)⟩
  rcases (hg₁.trans hg₂).tables p t hp ht with hold | hav
  · rw [hempty p t hp hold]
    exact hf
  · exact (ha.frame _ _ hav).1

theorem initial_booted (hboot : booted alloc fb s = some k) : Initial avail k := by
  obtain ⟨f, a, k₁, k₂, hal, hshared, hkernel, rfl⟩ := booted_cases hboot
  have hf : f ≠ 0 := (ha.frame _ _ (ha.fresh _ _ _ hal).1).1
  have hok : (firstSpace s f a).vmm.Ok avail f := cleared_ok ha.toFreshBlocks hal
  exact initial_mapped ha hfb hf hok rfl (fun p t hp ht => (cleared_tableAt hp ht).2) hshared hkernel

end boot
end Kernel

variable {fb : Framebuffer} {b : Vmm Bitmap} {k k' : Kernel Bitmap} {calls : List MapCall}

/-- After `vmm_init` has put its tables below the end of the identity map, on a
framebuffer below 2^48, every run of calls whose accesses are safe reaches all
frames of tables, and those that become tables, at their own addresses. -/
theorem tables_self_mapped (hfb : fb.addr.toNat / 4096 + fb.pages ≤ 2^36)
    (hboot : Kernel.booted allocateBlock fb b = some k)
    (hlow : ∀ p t, IsPath p → tableAt k.vmm.mem k.currentPml4 p = some t → t < identityEnd)
    (hrun : Run (fun k call k' => k.exec allocateBlock fb call = k' ∧
      k'.AllSafe allocateBlock Bitmap.Free Bitmap.lowFree) k calls k') :
    ∀ e ∈ k'.events, e.Reachable allocateBlock := by
  have hkept : ∃ whole, k'.Kept allocateBlock Bitmap.Free whole := by
    apply hrun.invariant fun k => ∃ whole, k.Kept allocateBlock Bitmap.Free whole
    · rintro k call k' ⟨whole, h⟩ ⟨rfl, hsafe⟩
      exact h.exec Bitmap.lowBlocks hfb hsafe
    · exact ⟨_, (Kernel.initial_booted Bitmap.lowBlocks hfb hboot).kept hlow⟩
  obtain ⟨whole, h⟩ := hkept
  exact h.events

/-! The machine with 256 MiB. -/

/-- No framebuffer. -/
def headless : Framebuffer := ⟨0#64, 0#32, 0#32⟩

/-- The memory at boot. -/
def bootVmm : Vmm Bitmap := ⟨fun _ => 0#64, Bitmap.boot256⟩

theorem boot256_booted : ∃ k, Kernel.booted allocateBlock headless bootVmm = some k ∧
    0xFFFF ≤ k.vmm.phys.left + 34 ∧ 63 ≤ k.vmm.phys.lowFree + 34 ∧
    ∀ p t, IsPath p → tableAt k.vmm.mem k.currentPml4 p = some t → t < identityEnd := by
  have hleft : Bitmap.left bootVmm.phys = 0xFFFF := Bitmap.boot256_left
  have hlow : 63 ≤ Bitmap.lowFree bootVmm.phys := Bitmap.boot256_lowFree
  obtain ⟨k, hboot, hcount, htables⟩ := Kernel.booted_some Bitmap.lowBlocks.toFreshBlocks Bitmap.supply
    (fun _ _ hf => hf.1) (by rw [hleft]; decide : 34 < Bitmap.left bootVmm.phys) 0#32 0#32
  refine ⟨k, hboot, ?_, ?_, htables _ Bitmap.lowBlocks.toLowFirst (by omega)⟩
  · have := hcount _ Bitmap.supply.le
    omega
  · have := hcount _ Bitmap.lowBlocks.le
    omega

/-- The registers of the local APIC are mapped at 1 GiB. -/
theorem tables_self_mapped_apic :
    ∃ k k', Kernel.booted allocateBlock headless bootVmm = some k ∧
      k.exec allocateBlock headless (.vmmMap k.currentPml4 0xFEE00000#64 0x40000000#64 pteWritable) = k' ∧
      k'.events ≠ [] ∧ ∀ e ∈ k'.events, e.Reachable allocateBlock := by
  obtain ⟨k, hboot, -, hlow, htables⟩ := boot256_booted
  have hfb : headless.addr.toNat / 4096 + headless.pages ≤ 2^36 := by decide
  have hinit := Kernel.initial_booted Bitmap.lowBlocks hfb hboot
  refine ⟨k, _, hboot, rfl, by simp [Kernel.exec, Kernel.vmmMap, Kernel.record], ?_⟩
  refine tables_self_mapped hfb hboot htables (.cons ⟨rfl, fun e he => ?_⟩ (.nil _))
  have hevents : k.events = [] := hinit.events
  have he : e ∈ k.events ++
    [⟨k.vmm, k.currentPml4, k.spaces, .getPte k.currentPml4 0xFEE00000#64 0x40000000#64⟩] := he
  rw [hevents, List.nil_append, List.mem_singleton] at he
  rw [he]
  refine ⟨?_, ?_, fun f hf hpage => ?_⟩
  · rw [hinit.spaces]
    exact List.mem_singleton.mpr rfl
  · have := missing_le k.vmm.mem k.currentPml4 (pathOf 0x40000000#64)
    rw [show (pathOf 0x40000000#64).length = 3 from rfl] at this
    dsimp only
    omega
  · have hp : pageOf 0x40000000#64 = 0x40000 := by decide
    have := hf.low
    unfold identityEnd at this
    omega

/-! It runs out of low blocks when it maps 4096 pages that are 2 MiB apart. -/

/-- Each of these pages needs a table of its own. -/
def farPage (j : Nat) : BitVec 64 := pageAddr (2^27 + 512 * j)

private theorem pageOf_farPage {j : Nat} (hj : j < 4096) : pageOf (farPage j) = 2^27 + 512 * j :=
  pageOf_pageAddr (by omega)

private theorem farPage_path {i j : Nat} (hi : i < 4096) (hj : j < 4096)
    (h : pathOf (farPage i) = pathOf (farPage j)) :
    i = j := by
  have hzero : ∀ j < 4096, ptIndex (farPage j) = 0 := by
    intro j hj
    rw [ptIndex, indexAt_eq, farPage, pageAddr_toNat (by omega)]
    omega
  have hpage := (pageOf_eq_iff _ _).mpr ⟨h, (hzero i hi).trans (hzero j hj).symm⟩
  rw [pageOf_farPage hi, pageOf_farPage hj] at hpage
  omega

/-- After `n` of these pages: what is a table was free at boot, frames above the
identity map are not mapped, and a table among them would have been noticed. -/
private structure Exhausting (n : Nat) (k : Kernel Bitmap) : Prop where
  ok : k.vmm.Ok Bitmap.Free k.currentPml4
  tables : ∀ p t, IsPath p → tableAt k.vmm.mem k.currentPml4 p = some t → Bitmap.boot256.Free t
  avail : ∀ f, k.vmm.phys.Free f → Bitmap.boot256.Free f
  unmapped : ∀ j, identityEnd / 4096 ≤ j → j < 2^27 → translate k.vmm.mem k.currentPml4 (pageAddr j) = 0
  mapped : ∀ j < n, translate k.vmm.mem k.currentPml4 (farPage j) = 4096
  left : 0xFFFF ≤ k.vmm.phys.left + 34 + 3 * n
  low : (∀ e ∈ k.events, e.Reachable allocateBlock) →
    ∀ p t, IsPath p → tableAt k.vmm.mem k.currentPml4 p = some t → t < identityEnd

namespace Exhausting
variable {k : Kernel Bitmap} {n : Nat}

/-- A frame that was free at boot and is mapped to itself is low. -/
private theorem low_of_selfMapped (h : Exhausting n k) {m : Memory} {t : Nat} (hfree : Bitmap.boot256.Free t)
    (hsame : translate m k.currentPml4 (BitVec.ofNat 64 t) =
      translate k.vmm.mem k.currentPml4 (BitVec.ofNat 64 t))
    (hself : SelfMapped m k.currentPml4 t) : t < identityEnd := by
  by_contra hhigh
  obtain ⟨hpos, ⟨j, rfl⟩, hmax, -⟩ := hfree
  have hj : j < 0x10000 := by
    rw [PhysicalMem.blockSize, Nat.mul_div_cancel_left _ (by decide)] at hmax
    exact hmax
  have hzero := h.unmapped j (by unfold identityEnd at hhigh ⊢; omega) (by omega)
  rw [translate_of_selfMapped hself, show BitVec.ofNat 64 (4096 * j) = pageAddr j from rfl, hzero] at hsame
  exact hpos hsame

theorem step (h : Exhausting n k) (hn : n < 4096) :
    Exhausting (n + 1) (k.exec allocateBlock headless (.vmmMap k.currentPml4 4096#64 (farPage n) 0#64)) := by
  have ha := Bitmap.lowBlocks.toFreshBlocks
  have hg := vmmMap_grows ha h.ok 4096#64 (farPage n) 0#64
  have hpages := (vmmMap_spec ha h.ok 4096#64 (farPage n) 0#64).2
  have hleft := h.left
  refine ⟨hg.ok, fun p t hp ht => ?_, fun f hf => h.avail f (hg.mono f hf), fun j hlo hhi =>
    ?_, fun j hj => ?_, ?_,
    fun hev p t hp ht => ?_⟩
  · rcases hg.tables p t hp ht with hold | hav
    · exact h.tables p t hp hold
    · exact h.avail t hav
  · refine (hpages _).trans ((if_neg fun hp => ?_).trans (h.unmapped j hlo hhi))
    rw [pageOf_farPage hn, pageOf_pageAddr (by omega)] at hp
    omega
  · refine (hpages _).trans ?_
    by_cases hjn : j = n
    · have hdone := (vmmMap_some ha h.ok Bitmap.supply (by omega) 4096#64 (farPage n) 0#64).1
      rw [if_pos ⟨hdone, by rw [hjn]⟩]
      decide
    · refine (if_neg fun hp => ?_).trans (h.mapped j (by omega))
      rw [pageOf_farPage hn, pageOf_farPage (by omega)] at hp
      omega
  · have hwalk := walk_le ha Bitmap.supply.le k.vmm k.currentPml4 (pathOf (farPage n))
    rw [← (vmmMap_walk allocateBlock k.vmm k.currentPml4 4096#64 (farPage n) 0#64).2] at hwalk
    have hthree : (pathOf (farPage n)).length = 3 := rfl
    show 0xFFFF ≤ Bitmap.left
      (k.vmm.vmmMap allocateBlock k.currentPml4 4096#64 (farPage n) 0#64).2.phys + 34 + 3 * (n + 1)
    omega
  · rcases vmmMap_tables ha h.ok 4096#64 (farPage n) 0#64 p t hp ht with hold | ⟨hav, m, hm⟩
    · exact h.low (fun e he => hev e (List.mem_append_left _ he)) p t hp hold
    · have hself : SelfMapped m k.currentPml4 t :=
        hev ⟨k.vmm, k.currentPml4, k.spaces, .getPte k.currentPml4 4096#64 (farPage n)⟩
          (List.mem_append_right _ List.mem_cons_self) (m, t) hm
      have hpath : IsPath ([] ++ pathOf (farPage n)) := pathOf_isPath _
      obtain ⟨s₁, hs₁, hmem⟩ := ((walk_grows ha h.ok hpath rfl).2.2 (m, t) hm).moment
      exact h.low_of_selfMapped (h.avail t hav) (by rw [show m = s₁.mem from hmem]; exact hs₁.pages _) hself

theorem run (m : Nat) (h : Exhausting n k) (hm : n + m ≤ 4096) :
    ∃ calls k', Run (fun k call k' => k.exec allocateBlock headless call = k') k calls k' ∧
    Exhausting (n + m) k' := by
  induction m generalizing n k with
  | zero => exact ⟨[], k, .nil k, h⟩
  | succ m ih =>
    obtain ⟨calls, k', hrun, hk'⟩ := ih (h.step (by omega)) (by omega)
    rw [Nat.add_right_comm] at hk'
    exact ⟨_ :: calls, k', .cons rfl hrun, hk'⟩

/-- There are 4096 tables, and 4095 low blocks. -/
theorem not_reachable (h : Exhausting 4096 k) : ¬ ∀ e ∈ k.events, e.Reachable allocateBlock := by
  intro hev
  have htable : ∀ j < 4096, ∃ t, tableAt k.vmm.mem k.currentPml4 (pathOf (farPage j)) = some t := by
    intro j hj
    have hmap := h.mapped j hj
    unfold translate at hmap
    split at hmap
    · cases hmap
    · next t ht => exact ⟨t, ht⟩
  choose! t ht using htable
  have hmaps : ∀ j ∈ Finset.range 4096, t j / 4096 ∈ Finset.Ico 1 4096 := by
    intro j hj
    have htj := ht j (Finset.mem_range.mp hj)
    obtain ⟨hpos, hdvd, -⟩ := h.tables _ _ (pathOf_isPath _) htj
    have hlow := h.low hev _ _ (pathOf_isPath _) htj
    unfold identityEnd at hlow
    rw [Finset.mem_Ico]
    omega
  have hcard : (Finset.Ico 1 4096).card < (Finset.range 4096).card := by
    rw [Nat.card_Ico, Finset.card_range]
    decide
  obtain ⟨i, hi, j, hj, hne, heq⟩ := Finset.exists_ne_map_eq_of_card_lt_of_maps_to hcard hmaps
  rw [Finset.mem_range] at hi hj
  have hroot := h.ok.tree.aligned
  have hdi := tableAt_dvd hroot (ht i hi)
  have hdj := tableAt_dvd hroot (ht j hj)
  have hsame : t i = t j := by omega
  have hpath := h.ok.tree.distinct _ _ _ (pathOf_isPath _) (pathOf_isPath _) (ht i hi) (hsame ▸ ht j hj)
  exact hne (farPage_path hi hj hpath)

end Exhausting

/-- With these calls, `vmm_map` comes to a table above the identity map. -/
theorem low_blocks_run_out :
    ¬ ∀ (fb : Framebuffer) (b : Vmm Bitmap) (k k' : Kernel Bitmap) (calls : List MapCall),
      fb.addr.toNat / 4096 + fb.pages ≤ 2^36 → Kernel.booted allocateBlock fb b = some k →
      Run (fun k call k' => k.exec allocateBlock fb call = k') k calls k' →
      ∀ e ∈ k'.events, e.Reachable allocateBlock := by
  intro hall
  obtain ⟨k, hboot, hleft, -, hlow⟩ := boot256_booted
  have hfb : headless.addr.toNat / 4096 + headless.pages ≤ 2^36 := by decide
  have ha := Bitmap.lowBlocks.toFreshBlocks
  have hinit := Kernel.initial_booted Bitmap.lowBlocks hfb hboot
  have hg := Kernel.booted_avail ha hboot
  have hstart : Exhausting 0 k := ⟨hinit.ok, hg.1, hg.2, fun j hlo hhi =>
    Kernel.booted_unmapped ha rfl hboot hlo hhi,
    fun j hj => absurd hj (Nat.not_lt_zero j), hleft, fun _ => hlow⟩
  obtain ⟨calls, k', hrun, hk'⟩ := hstart.run 4096 (by decide)
  exact hk'.not_reachable (hall headless bootVmm k k' calls hfb hboot hrun)

end GeckoOS.Mem.Paging
