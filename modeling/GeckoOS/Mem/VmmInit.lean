import GeckoOS.Mem.MapLoops

/-! How many blocks the tables take: at most three for each 2 MiB that are mapped,
so that `vmm_init` succeeds with a few dozen blocks. -/
namespace GeckoOS.Mem.Paging
variable {σ : Type} {alloc : AllocateBlock σ} {avail : σ → Nat → Prop} {left low : σ → Nat} {s : Vmm σ}
  {root t u : Nat} {p is : List Nat} {phys virt flags : BitVec 64}

/-- `left` counts blocks; as long as there is more than one, the next is handed out. -/
structure Supply (alloc : AllocateBlock σ) (left : σ → Nat) : Prop where
  le : ∀ a, left a ≤ left (alloc a).2 + 1
  some : ∀ a, 1 < left a → (alloc a).1 ≠ none

/-- The walk takes a block for each index at most. -/
theorem walk_le (ha : FreshBlocks alloc avail) {count : σ → Nat} (hc : ∀ a, count a ≤ count (alloc a).2 + 1)
    (s : Vmm σ) (t : Nat) (is : List Nat) : count s.phys ≤ count (s.walk alloc t is).2.phys + is.length := by
  induction is generalizing s t with
  | nil => exact Nat.le_refl _
  | cons i is ih =>
    have hone := hc s.phys
    unfold Vmm.walk
    rcases nextTable_cases ha s t i with ⟨u, -, heq, -⟩ | ⟨-, ⟨a, hal, heq, -⟩ | ⟨f, a, hal, heq, -⟩⟩
    · rw [heq]
      exact (ih s u).trans (by simp)
    · rw [heq]
      rw [hal] at hone
      simp only [List.length_cons] at hone ⊢
      omega
    · rw [heq]
      rw [hal] at hone
      have hrest := ih ⟨enterTable s.mem t i f, a⟩ f
      simp only [List.length_cons] at hone hrest ⊢
      omega

theorem walk_some (ha : FreshBlocks alloc avail) (hs : Supply alloc left) (s : Vmm σ) (t : Nat) (is : List Nat)
    (hleft : is.length < left s.phys) : (s.walk alloc t is).1 ≠ none := by
  induction is generalizing s t with
  | nil => simp [Vmm.walk]
  | cons i is ih =>
    have hone := hs.le s.phys
    rw [List.length_cons] at hleft
    unfold Vmm.walk
    rcases nextTable_cases ha s t i with ⟨u, -, heq, -⟩ | ⟨-, ⟨a, hal, heq, -⟩ | ⟨f, a, hal, heq, -⟩⟩
    · rw [heq]
      exact ih s u (by omega)
    · have := hs.some s.phys (by omega)
      rw [hal] at this
      exact absurd rfl this
    · rw [heq]
      rw [hal] at hone
      exact ih _ f (by dsimp only at hone ⊢; omega)

/-- Nothing is made on a path that is there. -/
theorem walk_present (ha : FreshBlocks alloc avail) (ht : tableAt s.mem root p = some t)
    (hu : tableAt s.mem root (p ++ is) = some u) : s.walk alloc t is = (some u, s) := by
  induction is generalizing p t with
  | nil =>
    rw [List.append_nil, ht] at hu
    rw [Vmm.walk, hu]
  | cons i is ih =>
    rw [List.append_cons] at hu
    cases hc : child s.mem t i with
    | none =>
      have hnone : tableAt s.mem root (p ++ [i]) = none := by rw [tableAt_snoc, ht, Option.bind_some, hc]
      rw [tableAt_none_append hnone is] at hu
      cases hu
    | some v =>
      have hv : tableAt s.mem root (p ++ [i]) = some v := by rw [tableAt_snoc, ht, Option.bind_some, hc]
      rcases nextTable_cases ha s t i with ⟨w, hw, heq, -⟩ | ⟨hnone, -⟩
      · obtain rfl := Option.some.inj (hc.symm.trans hw)
        unfold Vmm.walk
        rw [heq]
        exact ih hv hu
      · rw [hc] at hnone
        cases hnone

/-- The result of `vmm_map` and the allocator after it are those of the walk. -/
theorem vmmMap_walk (alloc : AllocateBlock σ) (s : Vmm σ) (root : Nat) (phys virt flags : BitVec 64) :
    (s.vmmMap alloc root phys virt flags).1 = (s.walk alloc root (pathOf virt)).1.isSome ∧
      (s.vmmMap alloc root phys virt flags).2.phys = (s.walk alloc root (pathOf virt)).2.phys := by
  unfold Vmm.vmmMap
  rw [getPte_eq_walk]
  rcases s.walk alloc root (pathOf virt) with ⟨r, s₁⟩
  cases r <;> exact ⟨rfl, rfl⟩

section vmmMap
variable (ha : FreshBlocks alloc avail) (hok : s.Ok avail root)
include ha hok

theorem vmmMap_some (hs : Supply alloc left) (hleft : 3 < left s.phys) (phys virt flags : BitVec 64) :
    (s.vmmMap alloc root phys virt flags).1 = true ∧
      ∃ t, tableAt (s.vmmMap alloc root phys virt flags).2.mem root (pathOf virt) = some t := by
  have hsome := walk_some ha hs s root (pathOf virt) hleft
  obtain ⟨t, ht⟩ := Option.ne_none_iff_exists'.mp hsome
  obtain ⟨s₁, hs₁, -, -, hsame⟩ := vmmMap_cases ha hok phys virt flags
  have hp : IsPath ([] ++ pathOf virt) := pathOf_isPath virt
  refine ⟨?_, t, ?_⟩
  · rw [(vmmMap_walk alloc s root phys virt flags).1, ht]
    rfl
  · rw [hsame _ (pathOf_isPath virt), hs₁]
    exact (walk_grows ha hok hp rfl).2.1 t ht

/-- On a path that is there, the tree and the allocator stay the same. -/
theorem vmmMap_present (ht : tableAt s.mem root (pathOf virt) = some t) (phys flags : BitVec 64) :
    (s.vmmMap alloc root phys virt flags).1 = true ∧ (s.vmmMap alloc root phys virt flags).2.phys = s.phys ∧
      ∀ q, IsPath q → tableAt (s.vmmMap alloc root phys virt flags).2.mem root q = tableAt s.mem root q := by
  have hw : s.walk alloc root (pathOf virt) = (some t, s) := walk_present (p := []) ha rfl ht
  obtain ⟨hres, hphys⟩ := vmmMap_walk alloc s root phys virt flags
  obtain ⟨s₁, hs₁, -, -, hsame⟩ := vmmMap_cases ha hok phys virt flags
  rw [hw] at hres hphys hs₁
  exact ⟨hres, hphys, fun q hq => by rw [hsame q hq, hs₁]⟩

end vmmMap

namespace Kernel
variable {k : Kernel σ} {n m : Nat}

theorem mapPages_add (h : (k.mapPages alloc root phys virt flags n).1 = true) :
    k.mapPages alloc root phys virt flags (n + m) =
      (k.mapPages alloc root phys virt flags n).2.mapPages alloc root (phys + pageAddr n)
        (virt + pageAddr n) flags m := by
  induction n generalizing k phys virt with
  | zero =>
    rw [Nat.zero_add, show pageAddr 0 = 0#64 from rfl, BitVec.add_zero, BitVec.add_zero]
    rfl
  | succ n ih =>
    rw [mapPages_succ] at h
    split at h
    · next hdone =>
      rw [Nat.add_right_comm, mapPages_succ, if_pos hdone, mapPages_succ, if_pos hdone, ih h, add_pageAddr_succ,
        add_pageAddr_succ]
    · cases h

section chunks
variable (ha : FreshBlocks alloc avail) (hok : k.vmm.Ok avail root)
include ha hok

theorem mapPages_present {path : List Nat} (ht : tableAt k.vmm.mem root path = some t)
    (phys virt flags : BitVec 64)
    (hsame : ∀ i < n, pathOf (virt + pageAddr i) = path) :
    (k.mapPages alloc root phys virt flags n).1 = true ∧
      (k.mapPages alloc root phys virt flags n).2.vmm.phys = k.vmm.phys ∧
      ∀ q, IsPath q → tableAt (k.mapPages alloc root phys virt flags n).2.vmm.mem root q =
        tableAt k.vmm.mem root q := by
  induction n generalizing k phys virt with
  | zero => exact ⟨rfl, rfl, fun _ _ => rfl⟩
  | succ n ih =>
    have hfirst : pathOf virt = path := by
      have := hsame 0 (by omega)
      rwa [show pageAddr 0 = 0#64 from rfl, BitVec.add_zero] at this
    obtain ⟨hres, hphys, htab⟩ := vmmMap_present ha hok (hfirst ▸ ht) phys flags
    have hpath : IsPath path := hfirst ▸ pathOf_isPath virt
    have hok' := (vmmMap_grows ha hok phys virt flags).ok
    have hrest : ∀ i < n, pathOf (virt + 4096#64 + pageAddr i) = path := by
      intro i hi
      rw [← add_pageAddr_succ]
      exact hsame (i + 1) (by omega)
    obtain ⟨hres', hphys', htab'⟩ := ih (k := (k.vmmMap alloc root phys virt flags).2) hok'
      ((htab path hpath).trans ht) (phys + 4096#64) (virt + 4096#64) hrest
    have hdone : (k.vmmMap alloc root phys virt flags).1 = true := hres
    rw [mapPages_succ, if_pos hdone]
    exact ⟨hres', hphys'.trans hphys, fun q hq => (htab' q hq).trans (htab q hq)⟩

/-- Pages of one table: at most three blocks are taken, for the first page. -/
theorem mapPages_chunk (hs : Supply alloc left) (hleft : 3 < left k.vmm.phys) (phys virt flags : BitVec 64)
    (hsame : ∀ i < n, pathOf (virt + pageAddr i) = pathOf virt) :
    (k.mapPages alloc root phys virt flags n).1 = true ∧
      (∀ count : σ → Nat, (∀ a, count a ≤ count (alloc a).2 + 1) →
        count k.vmm.phys ≤ count (k.mapPages alloc root phys virt flags n).2.vmm.phys + 3) ∧
      ∀ low, LowFirst alloc low → 3 ≤ low k.vmm.phys → ∀ q u, IsPath q →
        tableAt (k.mapPages alloc root phys virt flags n).2.vmm.mem root q = some u →
        tableAt k.vmm.mem root q = some u ∨ u < identityEnd := by
  cases n with
  | zero => exact ⟨rfl, fun _ _ => by simp [mapPages], fun _ _ _ _ _ _ hu => .inl hu⟩
  | succ n =>
    obtain ⟨hdone, t, ht⟩ := vmmMap_some ha hok hs hleft phys virt flags
    have hok' := (vmmMap_grows ha hok phys virt flags).ok
    have hrest : ∀ i < n, pathOf (virt + 4096#64 + pageAddr i) = pathOf virt := by
      intro i hi
      rw [← add_pageAddr_succ]
      exact hsame (i + 1) (by omega)
    obtain ⟨hres, hphys, htab⟩ := mapPages_present (k := (k.vmmMap alloc root phys virt flags).2) ha hok' ht
      (phys + 4096#64) (virt + 4096#64) flags hrest
    have hdone' : (k.vmmMap alloc root phys virt flags).1 = true := hdone
    rw [mapPages_succ, if_pos hdone']
    refine ⟨hres, fun count hc => ?_, fun low hl hlow q u hq hu => ?_⟩
    · rw [hphys]
      have hwalk := walk_le ha hc k.vmm root (pathOf virt)
      rw [← (vmmMap_walk alloc k.vmm root phys virt flags).2] at hwalk
      exact hwalk
    · rw [htab q hq] at hu
      have hroom : Vmm.missing k.vmm.mem root (pathOf virt) ≤ low k.vmm.phys := (missing_le _ _ _).trans hlow
      exact vmmMap_low ha hok phys virt flags hl hroom q u hq hu

end chunks

/-- The pages from `virt` on, in pieces that each lie in one table. -/
def Chunked (virt : BitVec 64) : List Nat → Prop
  | [] => True
  | n :: ns => (∀ i < n, pathOf (virt + pageAddr i) = pathOf virt) ∧ Chunked (virt + pageAddr n) ns

theorem mapPages_chunks (ha : FreshBlocks alloc avail) (hs : Supply alloc left) (hok : k.vmm.Ok avail root)
    (phys virt flags : BitVec 64) (ns : List Nat) (hchunks : Chunked virt ns)
    (hleft : 3 * ns.length < left k.vmm.phys) :
    (k.mapPages alloc root phys virt flags ns.sum).1 = true ∧
      (∀ count : σ → Nat, (∀ a, count a ≤ count (alloc a).2 + 1) →
        count k.vmm.phys ≤ count (k.mapPages alloc root phys virt flags ns.sum).2.vmm.phys + 3 * ns.length) ∧
      ∀ low, LowFirst alloc low → 3 * ns.length ≤ low k.vmm.phys → ∀ q u, IsPath q →
        tableAt (k.mapPages alloc root phys virt flags ns.sum).2.vmm.mem root q = some u →
        tableAt k.vmm.mem root q = some u ∨ u < identityEnd := by
  induction ns generalizing k phys virt with
  | nil => exact ⟨rfl, fun _ _ => by simp [mapPages], fun _ _ _ _ _ _ hu => .inl hu⟩
  | cons n ns ih =>
    obtain ⟨hsame, hrest⟩ := hchunks
    rw [List.length_cons] at hleft
    obtain ⟨hdone, hcount, hlow⟩ := mapPages_chunk ha hok hs (by omega) phys virt flags hsame
    have hok' := (mapPages_grows ha hok phys virt flags n).ok
    have hleft' := hcount left hs.le
    obtain ⟨hdone', hcount', hlow'⟩ := ih hok' (phys + pageAddr n) (virt + pageAddr n) hrest (by omega)
    rw [List.sum_cons, List.length_cons, mapPages_add hdone]
    refine ⟨hdone', fun count hc => ?_, fun low hl hlarge q u hq hu => ?_⟩
    · have h₁ := hcount count hc
      have h₂ := hcount' count hc
      omega
    · have h₁ := hcount low hl.le
      rcases hlow' low hl (by omega) q u hq hu with hold | hnew
      · exact hlow low hl (by omega) q u hq hold
      · exact .inr hnew

/-- As many pages as fit into the table of the first one. -/
private theorem chunk_path {v : BitVec 64} (h : v.toNat / 4096 % 512 + n ≤ 512) (i : Nat) (hi : i < n) :
    pathOf (v + pageAddr i) = pathOf v := by
  have hlt := v.isLt
  have hsum : (v + pageAddr i).toNat = v.toNat + 4096 * i := by
    rw [BitVec.toNat_add, pageAddr_toNat (by omega), Nat.mod_eq_of_lt (by omega)]
  simp only [pathOf, pml4Index, pdptIndex, pdIndex, indexAt_eq, hsum, List.cons.injEq, and_true]
  omega

private theorem chunked_aligned (m : Nat) {v : BitVec 64} (hv : v.toNat % 2^21 = 0) :
    Chunked v (List.replicate m 512) := by
  induction m generalizing v with
  | zero => trivial
  | succ m ih =>
    refine ⟨chunk_path (by omega), ih ?_⟩
    have hnext : (pageAddr 512).toNat = 2^21 := rfl
    rw [BitVec.toNat_add, hnext]
    omega

private theorem chunked_kernel : Chunked 0xFFFFFFFF80100000#64 [256, 512, 256] := by
  have h₁ : 0xFFFFFFFF80100000#64 + pageAddr 256 = 0xFFFFFFFF80200000#64 := by decide
  have h₂ : 0xFFFFFFFF80200000#64 + pageAddr 512 = 0xFFFFFFFF80400000#64 := by decide
  refine ⟨chunk_path (by decide), ?_⟩
  rw [h₁]
  refine ⟨chunk_path (by decide), ?_⟩
  rw [h₂]
  exact ⟨chunk_path (by decide), trivial⟩

/-- The start of `vmm_init`: the table `f`, cleared. -/
def firstSpace (s : Vmm σ) (f : Nat) (a : σ) : Kernel σ :=
  { (start s).record .newAddressSpace with vmm := ⟨Vmm.clearTable s.mem f, a⟩, spaces := [f] }

private theorem newAddressSpace_start {f : Nat} {a : σ} (hal : alloc s.phys = (some f, a)) :
    (start s).newAddressSpace alloc = (f, firstSpace s f a) := by
  unfold newAddressSpace Vmm.allocTable
  rw [show (start s).vmm = s from rfl, hal]
  rfl

/-- Everything `vmm_init` does when it succeeds. -/
theorem booted_cases {fb : Framebuffer} (h : booted alloc fb s = some k) :
    ∃ f a k₁ k₂, alloc s.phys = (some f, a) ∧ (firstSpace s f a).mapShared alloc fb f = (true, k₁) ∧
      k₁.mapPages alloc f 0x100000#64 0xFFFFFFFF80100000#64 (ptePresent ||| pteWritable)
        (0x400000 / 4096) = (true, k₂) ∧
      k = { k₂ with currentPml4 := f, events := [] } := by
  unfold booted vmmInit at h
  rcases hal : alloc s.phys with ⟨r, a⟩
  cases r with
  | none =>
    have hnone : ((start s).newAddressSpace alloc).1 = 0 := by
      unfold newAddressSpace Vmm.allocTable
      rw [show (start s).vmm = s from rfl, hal]
      rfl
    rcases hnew : (start s).newAddressSpace alloc with ⟨pml4, k₀⟩
    rw [hnew] at h hnone
    dsimp only at h hnone
    rw [if_pos hnone] at h
    cases h
  | some f =>
    rw [newAddressSpace_start hal] at h
    dsimp only at h
    split at h
    · next k' hinit =>
      obtain rfl := Option.some.inj h
      split at hinit
      · cases hinit
      · split at hinit
        · cases hinit
        · next k₁ hshared =>
          split at hinit
          · cases hinit
          · next k₂ hkernel =>
            obtain rfl := (Prod.mk.inj hinit).2
            exact ⟨f, a, k₁, k₂, rfl, hshared, hkernel, rfl⟩
    · cases h

/-- The pages of the kernel are in the upper half. -/
theorem kernel_pages {i j : Nat} (hi : i < 0x400000 / 4096) (hj : j < 2^27) :
    pageOf (pageAddr j) ≠ pageOf (0xFFFFFFFF80100000#64 + pageAddr i) := by
  rw [pageOf_pageAddr (by omega), pageOf, BitVec.toNat_add, pageAddr_toNat (by omega)]
  have hbase : (0xFFFFFFFF80100000#64).toNat = 0xFFFFFFFF80100000 := rfl
  rw [hbase]
  omega

section booted
variable (ha : FreshBlocks alloc avail) {fb : Framebuffer}
include ha

/-- The first address space grows from a cleared table. -/
theorem booted_grows (h : booted alloc fb s = some k) :
    ∃ f a, alloc s.phys = (some f, a) ∧ k.currentPml4 = f ∧ k.mmioVirtNext = 0xFFFFFFFF90000000#64 ∧
      Grows avail f ⟨Vmm.clearTable s.mem f, a⟩ k.vmm := by
  obtain ⟨f, a, k₁, k₂, hal, hshared, hkernel, rfl⟩ := booted_cases h
  have hok : (firstSpace s f a).vmm.Ok avail f := cleared_ok ha hal
  have hg₁ := mapShared_grows ha hok fb
  have hn₁ := mapShared_mmioVirtNext alloc fb (firstSpace s f a) f
  rw [hshared] at hg₁ hn₁
  have hg₂ := mapPages_grows ha hg₁.ok 0x100000#64 0xFFFFFFFF80100000#64 (ptePresent ||| pteWritable)
    (0x400000 / 4096)
  have hn₂ := mapPages_mmioVirtNext alloc k₁ f 0x100000#64 0xFFFFFFFF80100000#64
    (ptePresent ||| pteWritable) (0x400000 / 4096)
  rw [hkernel] at hg₂ hn₂
  exact ⟨f, a, hal, rfl, hn₂.trans hn₁, hg₁.trans hg₂⟩

/-- The tables of the first address space, and the blocks that remain, were available. -/
theorem booted_avail (h : booted alloc fb s = some k) :
    (∀ p t, IsPath p → tableAt k.vmm.mem k.currentPml4 p = some t → avail s.phys t) ∧
      ∀ f, avail k.vmm.phys f → avail s.phys f := by
  obtain ⟨f, a, hal, hroot, -, hg⟩ := booted_grows ha h
  have hmono : ∀ g, avail a g → avail s.phys g := fun g hg => ha.mono _ g (by rw [hal]; exact hg)
  refine ⟨fun p t hp ht => ?_, fun g hav => hmono g (hg.mono g hav)⟩
  rw [hroot] at ht
  rcases hg.tables p t hp ht with hold | hav
  · rw [(cleared_tableAt hp hold).2]
    exact (ha.fresh _ _ _ hal).1
  · exact hmono t hav

/-- Without a framebuffer, nothing is mapped between the identity map and 2^39. -/
theorem booted_unmapped (hfb : fb.addr = 0#64) (h : booted alloc fb s = some k) {j : Nat}
    (hlo : identityEnd / 4096 ≤ j)
    (hhi : j < 2^27) : translate k.vmm.mem k.currentPml4 (pageAddr j) = 0 := by
  obtain ⟨f, a, k₁, k₂, hal, hshared, hkernel, rfl⟩ := booted_cases h
  have hok : (firstSpace s f a).vmm.Ok avail f := cleared_ok ha hal
  have hg₁ := mapShared_grows ha hok fb
  have hempty : translate (firstSpace s f a).vmm.mem f (pageAddr j) = 0 := by
    unfold translate
    cases ht : tableAt (firstSpace s f a).vmm.mem f (pathOf (pageAddr j)) with
    | none => rfl
    | some t =>
      have := (cleared_tableAt (pathOf_isPath _) ht).1
      cases this
  have hwindow : translate k₁.vmm.mem f (pageAddr j) = translate (firstSpace s f a).vmm.mem f (pageAddr j) := by
    have hother := mapPages_other ha hok 0#64 0#64 (ptePresent ||| pteWritable) (n := identityEnd / 4096)
      (w := pageAddr j) fun i hi => by
        rw [BitVec.zero_add, pageOf_pageAddr (by omega), pageOf_pageAddr (by omega)]
        omega
    unfold mapShared at hshared
    split at hshared
    · cases hshared
    · next k' hloop =>
      rw [if_pos hfb] at hshared
      obtain rfl := (Prod.mk.inj hshared).2
      rwa [hloop] at hother
  rw [hshared] at hg₁
  have hother := mapPages_other ha hg₁.ok 0x100000#64 0xFFFFFFFF80100000#64 (ptePresent ||| pteWritable)
    fun i hi => kernel_pages hi hhi
  rw [hkernel] at hother
  exact hother.trans (hwindow.trans hempty)

end booted

private theorem booted_eq {f : Nat} {a : σ} {k₁ k₂ : Kernel σ} {height pitch : BitVec 32}
    (hal : alloc s.phys = (some f, a)) (hf : f ≠ 0)
    (hwindow : (firstSpace s f a).mapPages alloc f 0#64 0#64 (ptePresent ||| pteWritable)
      (identityEnd / 4096) = (true, k₁))
    (hkernel : k₁.mapPages alloc f 0x100000#64 0xFFFFFFFF80100000#64 (ptePresent ||| pteWritable)
      (0x400000 / 4096) =
      (true, k₂)) :
    booted alloc ⟨0#64, height, pitch⟩ s = some { k₂ with currentPml4 := f, events := [] } := by
  unfold booted vmmInit mapShared
  rw [newAddressSpace_start hal]
  dsimp only
  rw [if_neg hf, hwindow]
  dsimp only
  rw [if_pos rfl]
  dsimp only
  rw [hkernel]

/-- Without a framebuffer, `vmm_init` succeeds with 35 blocks, takes at most 34 of
them, and makes low tables only if as many low blocks are free. -/
theorem booted_some (ha : FreshBlocks alloc avail) (hs : Supply alloc left) (hpos : ∀ a f, avail a f → f ≠ 0)
    (hleft : 34 < left s.phys) (height pitch : BitVec 32) :
    ∃ k, booted alloc ⟨0#64, height, pitch⟩ s = some k ∧
      (∀ count : σ → Nat, (∀ a, count a ≤ count (alloc a).2 + 1) → count s.phys ≤ count k.vmm.phys + 34) ∧
      ∀ low, LowFirst alloc low → 34 ≤ low s.phys → ∀ q u, IsPath q →
        tableAt k.vmm.mem k.currentPml4 q = some u → u < identityEnd := by
  obtain ⟨f, hf⟩ := Option.ne_none_iff_exists'.mp (hs.some s.phys (by omega))
  rcases hal : alloc s.phys with ⟨r, a⟩
  rw [hal] at hf
  obtain rfl : r = some f := hf
  have hone : ∀ count : σ → Nat, (∀ a, count a ≤ count (alloc a).2 + 1) → count s.phys ≤ count a + 1 := by
    intro count hc
    have := hc s.phys
    rwa [hal] at this
  have hok₀ : (firstSpace s f a).vmm.Ok avail f := cleared_ok ha hal
  have hleft₀ := hone left hs.le
  -- the identity map lies in eight tables
  have hsum₁ : (List.replicate 8 512).sum = identityEnd / 4096 := rfl
  obtain ⟨hdone₁, hcount₁, hlow₁⟩ := mapPages_chunks ha hs hok₀ 0#64 0#64 (ptePresent ||| pteWritable)
    (List.replicate 8 512) (chunked_aligned 8 rfl) (show 3 * 8 < left a by omega)
  have hok₁ := (mapPages_grows ha hok₀ 0#64 0#64 (ptePresent ||| pteWritable) (identityEnd / 4096)).ok
  rw [hsum₁] at hdone₁ hcount₁ hlow₁
  rcases hwindow : (firstSpace s f a).mapPages alloc f 0#64 0#64 (ptePresent ||| pteWritable)
    (identityEnd / 4096)
    with ⟨done, k₁⟩
  rw [hwindow] at hdone₁ hcount₁ hlow₁ hok₁
  obtain rfl : done = true := hdone₁
  have hcount₁ : ∀ count : σ → Nat, (∀ a, count a ≤ count (alloc a).2 + 1) →
    count a ≤ count k₁.vmm.phys + 24 := hcount₁
  have hleft₁ := hcount₁ left hs.le
  -- and the kernel in three
  have hsum₂ : [256, 512, 256].sum = 0x400000 / 4096 := rfl
  obtain ⟨hdone₂, hcount₂, hlow₂⟩ := mapPages_chunks ha hs hok₁ 0x100000#64 0xFFFFFFFF80100000#64
    (ptePresent ||| pteWritable) [256, 512, 256] chunked_kernel (show 9 < left k₁.vmm.phys by omega)
  rw [hsum₂] at hdone₂ hcount₂ hlow₂
  rcases hkernel : k₁.mapPages alloc f 0x100000#64 0xFFFFFFFF80100000#64 (ptePresent ||| pteWritable)
    (0x400000 / 4096)
    with ⟨done, k₂⟩
  rw [hkernel] at hdone₂ hcount₂ hlow₂
  obtain rfl : done = true := hdone₂
  refine ⟨{ k₂ with currentPml4 := f, events := [] }, ?_, fun count hc => ?_, fun low hl hlarge q u hq hu => ?_⟩
  · exact booted_eq hal (hpos _ _ (ha.fresh _ _ _ hal).1) hwindow hkernel
  · have h₀ := hone count hc
    have h₁ := hcount₁ count hc
    have h₂ : count k₁.vmm.phys ≤ count k₂.vmm.phys + 9 := hcount₂ count hc
    show count s.phys ≤ count k₂.vmm.phys + 34
    omega
  · have h₀ := hone low hl.le
    have h₁ := hcount₁ low hl.le
    rcases hlow₂ low hl (show 9 ≤ low k₁.vmm.phys by omega) q u hq hu with hold | hnew
    · rcases hlow₁ low hl (show 24 ≤ low a by omega) q u hq hold with hfirst | hnew
      · rw [(cleared_tableAt hq hfirst).2]
        exact hl.first _ _ _ hal (by omega)
      · exact hnew
    · exact hnew

end Kernel

end GeckoOS.Mem.Paging
