import GeckoOS.Mem.AddressSpaces

/-! The loops around `vmm_map`: what they change in one address space, and that
they leave the identity map in it. -/
namespace GeckoOS.Mem.Paging
variable {σ : Type} {alloc : AllocateBlock σ} {avail : σ → Nat → Prop} {s : Vmm σ} {root f t : Nat}

/-- A cleared table leads nowhere. -/
theorem cleared_tableAt {m : Memory} {p : List Nat} (hp : IsPath p)
    (ht : tableAt (Vmm.clearTable m f) f p = some t) :
    p = [] ∧ t = f := by
  cases p with
  | nil => exact ⟨rfl, (Option.some.inj ht).symm⟩
  | cons i p =>
    have hi : i < 512 := hp.2 i (by simp)
    have hzero : Vmm.clearTable m f (entryAddr f i) = 0#64 := if_pos (by unfold entryAddr; omega)
    have hnone : tableAt (Vmm.clearTable m f) f [i] = none := by
      simp [tableAt, child, hzero, pteIsPresent]
    have := tableAt_none_append hnone p
    rw [List.singleton_append, ht] at this
    cases this

theorem cleared_ok (ha : FreshBlocks alloc avail) {a : σ} (hal : alloc s.phys = (some f, a)) :
    (⟨Vmm.clearTable s.mem f, a⟩ : Vmm σ).Ok avail f := by
  obtain ⟨-, hd, -, hnot⟩ := ha.fresh _ _ _ hal
  refine ⟨⟨hd, fun p q t hp hq ht hu => ?_, fun p i t hp ht hpres => ?_⟩, fun p t hp ht => ?_⟩
  · rw [(cleared_tableAt hp ht).1, (cleared_tableAt hq hu).1]
  · obtain ⟨rfl, rfl⟩ := cleared_tableAt (isPath_of_append hp) ht
    have hi : i < 512 := hp.2 i (by simp)
    have hzero : Vmm.clearTable s.mem t (entryAddr t i) = 0#64 := if_pos (by unfold entryAddr; omega)
    dsimp only at hpres
    rw [hzero] at hpres
    cases hpres
  · rw [(cleared_tableAt hp ht).2]
    exact hnot

/-! Page numbers and addresses. -/

/-- The address of a page. -/
def pageAddr (j : Nat) : BitVec 64 := BitVec.ofNat 64 (4096 * j)

theorem pageAddr_succ (j : Nat) : pageAddr j + 4096#64 = pageAddr (j + 1) := by
  rw [pageAddr, pageAddr, Nat.mul_add, BitVec.ofNat_add]

theorem add_pageAddr_succ (a : BitVec 64) (j : Nat) : a + pageAddr (j + 1) = a + 4096#64 + pageAddr j := by
  rw [← pageAddr_succ, BitVec.add_comm (pageAddr j), BitVec.add_assoc]

theorem pageAddr_toNat {j : Nat} (hj : j < 2^52) : (pageAddr j).toNat = 4096 * j := by
  rw [pageAddr, BitVec.toNat_ofNat, Nat.mod_eq_of_lt (by omega)]

theorem pageOf_pageAddr {j : Nat} (hj : j < 2^36) : pageOf (pageAddr j) = j := by
  rw [pageOf, pageAddr_toNat (by omega)]
  omega

theorem pteGetPhys_pageAddr {j : Nat} (hj : j < 2^40) : pteGetPhys (pageAddr j) = 4096 * j := by
  rw [pteGetPhys_eq, pageAddr_toNat (by omega)]
  omega

theorem pageOf_lt (v : BitVec 64) : pageOf v < 2^36 := Nat.mod_lt _ (by decide)

theorem pageOf_add_pageAddr (v : BitVec 64) (i : Nat) : pageOf (v + pageAddr i) = (pageOf v + i) % 2^36 := by
  rw [pageOf, pageOf, pageAddr, BitVec.toNat_add, BitVec.toNat_ofNat]
  omega

theorem and_not_offset (a : BitVec 64) : a &&& ~~~0xFFF#64 = pageAddr (a.toNat / 4096) := by
  have hmask : (~~~0xFFF#64).toNat = (2^52 - 1) <<< 12 := by decide
  have hlt := a.isLt
  apply BitVec.eq_of_toNat_eq
  rw [BitVec.toNat_and, hmask, and_page_mask, pageAddr_toNat (by omega)]
  omega

namespace Kernel
variable {k : Kernel σ} {phys virt flags : BitVec 64} {n : Nat}

theorem mapPages_succ : k.mapPages alloc root phys virt flags (n + 1) =
    if (k.vmmMap alloc root phys virt flags).1 then
      (k.vmmMap alloc root phys virt flags).2.mapPages alloc root (phys + 4096#64) (virt + 4096#64) flags n
    else (false, (k.vmmMap alloc root phys virt flags).2) := by
  rw [mapPages]
  rcases k.vmmMap alloc root phys virt flags with ⟨b, k₁⟩
  cases b <;> rfl

/-- Only memory, the allocator and the record change. -/
theorem mapPages_fields (alloc : AllocateBlock σ) (k : Kernel σ) (root : Nat)
    (phys virt flags : BitVec 64) (n : Nat) :
    (k.mapPages alloc root phys virt flags n).2.spaces = k.spaces ∧
      (k.mapPages alloc root phys virt flags n).2.currentPml4 = k.currentPml4 ∧
      k.events ⊆ (k.mapPages alloc root phys virt flags n).2.events := by
  induction n generalizing k phys virt with
  | zero => exact ⟨rfl, rfl, List.Subset.refl _⟩
  | succ n ih =>
    have hfirst : k.events ⊆ (k.vmmMap alloc root phys virt flags).2.events := List.subset_append_left _ _
    rw [mapPages_succ]
    split
    · obtain ⟨hs, hc, he⟩ := ih (k.vmmMap alloc root phys virt flags).2 (phys + 4096#64) (virt + 4096#64)
      exact ⟨hs, hc, List.Subset.trans hfirst he⟩
    · exact ⟨rfl, rfl, hfirst⟩

theorem mapPages_mmioVirtNext (alloc : AllocateBlock σ) (k : Kernel σ) (root : Nat)
    (phys virt flags : BitVec 64) (n : Nat) :
    (k.mapPages alloc root phys virt flags n).2.mmioVirtNext = k.mmioVirtNext := by
  induction n generalizing k phys virt with
  | zero => rfl
  | succ n ih =>
    rw [mapPages_succ]
    split
    · exact ih _ _ _
    · rfl

section loop
variable (ha : FreshBlocks alloc avail)
include ha

theorem mapPages_grows (hok : k.vmm.Ok avail root) (phys virt flags : BitVec 64) (n : Nat) :
    Grows avail root k.vmm (k.mapPages alloc root phys virt flags n).2.vmm := by
  induction n generalizing k phys virt with
  | zero => exact (GrowsOnly.refl hok).toGrows
  | succ n ih =>
    have hg : Grows avail root k.vmm (k.vmmMap alloc root phys virt flags).2.vmm :=
      vmmMap_grows ha hok phys virt flags
    rw [mapPages_succ]
    split
    · exact hg.trans (ih hg.ok _ _)
    · exact hg

/-- The pages outside the range stay as they are. -/
theorem mapPages_outside (hok : k.vmm.Ok avail root) (phys virt flags : BitVec 64) {n : Nat} {w : BitVec 64}
    (hw : ∀ i < n, pageOf w ≠ pageOf (virt + pageAddr i)) :
    lookup (k.mapPages alloc root phys virt flags n).2.vmm.mem root w = lookup k.vmm.mem root w := by
  induction n generalizing k phys virt with
  | zero => rfl
  | succ n ih =>
    obtain ⟨hok', htr⟩ := vmmMap_lookup ha hok phys virt flags
    have hfirst : lookup (k.vmmMap alloc root phys virt flags).2.vmm.mem root w = lookup k.vmm.mem root w := by
      refine (htr w).trans (if_neg fun hpage => hw 0 (by omega) ?_)
      rw [hpage.2, pageAddr, Nat.mul_zero, BitVec.add_zero]
    rw [mapPages_succ]
    split
    · refine (ih hok' _ _ fun i hi => ?_).trans hfirst
      rw [← add_pageAddr_succ]
      exact hw (i + 1) (by omega)
    · exact hfirst

theorem mapPages_other (hok : k.vmm.Ok avail root) (phys virt flags : BitVec 64) {n : Nat} {w : BitVec 64}
    (hw : ∀ i < n, pageOf w ≠ pageOf (virt + pageAddr i)) :
    translate (k.mapPages alloc root phys virt flags n).2.vmm.mem root w = translate k.vmm.mem root w :=
  translate_of_lookup (mapPages_outside ha hok phys virt flags hw)

/-- A loop that succeeds maps its pages one after the other. -/
theorem mapPages_inside (hok : k.vmm.Ok avail root) (phys virt flags : BitVec 64) {n i : Nat}
    (hn : n ≤ 2^36) (hi : i < n)
    (hdone : (k.mapPages alloc root phys virt flags n).1 = true) :
    lookup (k.mapPages alloc root phys virt flags n).2.vmm.mem root (virt + pageAddr i) =
      some (pteGetPhys (phys + pageAddr i)) := by
  induction n generalizing k phys virt i with
  | zero => omega
  | succ n ih =>
    obtain ⟨hok', htr⟩ := vmmMap_lookup ha hok phys virt flags
    rw [mapPages_succ] at hdone ⊢
    split at hdone
    · next hfirst =>
      rw [if_pos hfirst]
      cases i with
      | zero =>
        have hzero : pageAddr 0 = 0#64 := rfl
        rw [hzero, BitVec.add_zero, BitVec.add_zero]
        -- the first page, which the others are apart from
        refine (mapPages_outside ha hok' _ _ _ fun i hi => ?_).trans ((htr virt).trans (if_pos ⟨hfirst, rfl⟩))
        rw [← add_pageAddr_succ, pageOf_add_pageAddr]
        have := pageOf_lt virt
        omega
      | succ i =>
        rw [add_pageAddr_succ, add_pageAddr_succ]
        exact ih hok' _ _ (by omega) (by omega) hdone
    · cases hdone

/-- A loop that maps pages to themselves. -/
theorem mapPages_identity (hok : k.vmm.Ok avail root) (flags : BitVec 64) {j first n : Nat}
    (hrange : first + n ≤ 2^36) (hj : j < 2^36)
    (h : translate k.vmm.mem root (pageAddr j) = 4096 * j ∨
      (k.mapPages alloc root (pageAddr first) (pageAddr first) flags n).1 = true ∧ first ≤ j ∧ j < first + n) :
    translate (k.mapPages alloc root (pageAddr first) (pageAddr first) flags n).2.vmm.mem root
      (pageAddr j) = 4096 * j := by
  induction n generalizing k first with
  | zero => exact h.resolve_right (by omega)
  | succ n ih =>
    obtain ⟨hok', htr⟩ := vmmMap_spec ha hok (pageAddr first) (pageAddr first) flags
    have hone := htr (pageAddr j)
    rw [pageOf_pageAddr hj, pageOf_pageAddr (by omega), pteGetPhys_pageAddr (by omega)] at hone
    -- the page is mapped by the first round, or was mapped before
    have hkeep : translate k.vmm.mem root (pageAddr j) = 4096 * j →
        translate (k.vmmMap alloc root (pageAddr first) (pageAddr first) flags).2.vmm.mem root
          (pageAddr j) = 4096 * j := by
      intro hold
      refine hone.trans ?_
      split
      · next hpage => rw [hpage.2]
      · exact hold
    rw [mapPages_succ] at h ⊢
    split
    · next hdone =>
      rw [if_pos hdone, pageAddr_succ] at h
      rw [pageAddr_succ]
      apply ih hok' (by omega)
      rcases h with hold | ⟨hrest, hge, hlt⟩
      · exact .inl (hkeep hold)
      · by_cases hjf : j = first
        · exact .inl (hone.trans ((if_pos ⟨hdone, hjf⟩).trans (by rw [hjf])))
        · exact .inr ⟨hrest, by omega, by omega⟩
    · next hfail =>
      rw [if_neg hfail] at h
      exact hkeep (h.resolve_right fun hres => Bool.false_ne_true hres.1)

theorem mapShared_grows (hok : k.vmm.Ok avail root) (fb : Framebuffer) :
    Grows avail root k.vmm (k.mapShared alloc fb root).2.vmm := by
  have hg := mapPages_grows ha hok 0#64 0#64 (ptePresent ||| pteWritable) (identityEnd / 4096)
  unfold mapShared
  rcases hloop : k.mapPages alloc root 0#64 0#64 (ptePresent ||| pteWritable) (identityEnd / 4096) with ⟨b, k₁⟩
  rw [hloop] at hg
  cases b with
  | false => exact hg
  | true =>
    dsimp only
    split
    · exact hg
    · exact hg.trans (mapPages_grows ha hg.ok _ _ _ _)

/-- Every address space starts with the identity map. -/
theorem mapShared_identity (hok : k.vmm.Ok avail root) {fb : Framebuffer}
    (hfb : fb.addr.toNat / 4096 + fb.pages ≤ 2^36) (hdone : (k.mapShared alloc fb root).1 = true) {j : Nat}
    (hj : j < identityEnd / 4096) :
    translate (k.mapShared alloc fb root).2.vmm.mem root (pageAddr j) = 4096 * j := by
  have hj36 : j < 2^36 := by
    unfold identityEnd at hj
    omega
  have hrange : 0 + identityEnd / 4096 ≤ 2^36 := by decide
  have hwindow := mapPages_identity ha hok (ptePresent ||| pteWritable) hrange hj36
  have hg := mapPages_grows ha hok (pageAddr 0) (pageAddr 0) (ptePresent ||| pteWritable) (identityEnd / 4096)
  unfold mapShared at hdone ⊢
  rw [show 0#64 = pageAddr 0 from rfl] at hdone ⊢
  rcases hloop : k.mapPages alloc root (pageAddr 0) (pageAddr 0) (ptePresent ||| pteWritable)
    (identityEnd / 4096)
    with ⟨b, k₁⟩
  rw [hloop] at hdone hwindow hg
  cases b with
  | false => cases hdone
  | true =>
    have hfirst := hwindow (.inr ⟨rfl, by omega, by omega⟩)
    dsimp only at hfirst ⊢
    split
    · exact hfirst
    · rw [Framebuffer.physStart, and_not_offset]
      exact mapPages_identity ha hg.ok _ hfb hj36 (.inl hfirst)

end loop

theorem mapShared_fields (alloc : AllocateBlock σ) (fb : Framebuffer) (k : Kernel σ) (root : Nat) :
    (k.mapShared alloc fb root).2.spaces = k.spaces ∧ (k.mapShared alloc fb root).2.currentPml4 =
      k.currentPml4 ∧
      k.events ⊆ (k.mapShared alloc fb root).2.events := by
  unfold mapShared
  have hfirst := mapPages_fields alloc k root 0#64 0#64 (ptePresent ||| pteWritable) (identityEnd / 4096)
  rcases hloop : k.mapPages alloc root 0#64 0#64 (ptePresent ||| pteWritable) (identityEnd / 4096) with ⟨b, k₁⟩
  rw [hloop] at hfirst
  cases b with
  | false => exact hfirst
  | true =>
    dsimp only
    split
    · exact hfirst
    · obtain ⟨hs, hc, he⟩ := mapPages_fields alloc k₁ root fb.physStart fb.physStart
        (ptePresent ||| pteWritable ||| pteCacheDisable) fb.pages
      exact ⟨hs.trans hfirst.1, hc.trans hfirst.2.1, List.Subset.trans hfirst.2.2 he⟩

theorem mapShared_mmioVirtNext (alloc : AllocateBlock σ) (fb : Framebuffer) (k : Kernel σ) (root : Nat) :
    (k.mapShared alloc fb root).2.mmioVirtNext = k.mmioVirtNext := by
  unfold mapShared
  have hfirst := mapPages_mmioVirtNext alloc k root 0#64 0#64 (ptePresent ||| pteWritable) (identityEnd / 4096)
  rcases hloop : k.mapPages alloc root 0#64 0#64 (ptePresent ||| pteWritable) (identityEnd / 4096) with ⟨b, k₁⟩
  rw [hloop] at hfirst
  cases b with
  | false => exact hfirst
  | true =>
    dsimp only
    split
    · exact hfirst
    · exact (mapPages_mmioVirtNext ..).trans hfirst

end Kernel

end GeckoOS.Mem.Paging
