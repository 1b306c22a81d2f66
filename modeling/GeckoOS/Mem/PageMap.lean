import GeckoOS.Mem.BlockRuns
import GeckoOS.Mem.PageTree

/-! `vmm_map` and `vmm_unmap` as updates of a map from page numbers to frames. -/
namespace GeckoOS.Mem.Paging
variable {σ : Type} {alloc : AllocateBlock σ} {avail : σ → Nat → Prop} {s : Vmm σ} {root : Nat}

/-- What the paging code relies on: a block handed out was available, is a frame
address, and is not available again. -/
structure FreshBlocks (alloc : AllocateBlock σ) (avail : σ → Nat → Prop) : Prop where
  fresh : ∀ a f a', alloc a = (some f, a') → avail a f ∧ 4096 ∣ f ∧ f < 2^52 ∧ ¬ avail a' f
  mono : ∀ a g, avail (alloc a).2 g → avail a g

/-- A well-formed tree none of whose frames is available for allocation. -/
structure Vmm.Ok (avail : σ → Nat → Prop) (s : Vmm σ) (root : Nat) : Prop where
  tree : TreeOk s.mem root
  apart : ∀ p t, IsPath p → tableAt s.mem root p = some t → ¬ avail s.phys t

/-- `s'` has a well-formed tree with the pages of `s`. -/
private def SamePages (avail : σ → Nat → Prop) (root : Nat) (s s' : Vmm σ) : Prop :=
  s'.Ok avail root ∧ ∀ v, lookup s'.mem root v = lookup s.mem root v

private theorem nextTable_create (ha : FreshBlocks alloc avail) (hok : s.Ok avail root)
    {p : List Nat} {i t : Nat}
    (hp : IsPath (p ++ [i])) (ht : tableAt s.mem root p = some t) :
    SamePages avail root s (s.nextTable alloc (entryAddr t i) true).2 ∧
      ∀ u, (s.nextTable alloc (entryAddr t i) true).1 = some u →
        tableAt (s.nextTable alloc (entryAddr t i) true).2.mem root (p ++ [i]) = some u := by
  unfold Vmm.nextTable
  by_cases hpres : pteIsPresent (s.mem (entryAddr t i)) = true
  · rw [if_pos hpres]
    refine ⟨⟨hok, fun _ => rfl⟩, fun u hu => ?_⟩
    rw [tableAt_snoc, ht, Option.bind_some, child, if_pos hpres]
    exact hu
  · rw [if_neg hpres, if_pos rfl]
    unfold Vmm.allocTable
    rcases hal : alloc s.phys with ⟨r, a⟩
    have hmono : ∀ g, avail a g → avail s.phys g := fun g hg => ha.mono _ g (by rw [hal]; exact hg)
    cases r with
    | none =>
      exact ⟨⟨⟨hok.tree, fun p t hp ht h => hok.apart p t hp ht (hmono t h)⟩, fun _ => rfl⟩, by simp⟩
    | some f =>
      obtain ⟨hav, hd, hlt, hnot⟩ := ha.fresh _ _ _ hal
      obtain ⟨htree, hold, hnew, htrans⟩ := enterTable_ok hok.tree hp ht (by simpa using hpres) hd hlt
        (fun q hq he => hok.apart q f hq he hav)
      refine ⟨⟨⟨htree, fun q u hq hu hau => ?_⟩, htrans⟩, fun u hu => ?_⟩
      · rcases hold q u hq hu with rfl | h
        · exact hnot hau
        · exact hok.apart q u hq h (hmono u hau)
      · rw [← hu]
        dsimp only [Vmm.store]
        rw [Function.update_self]
        exact hnew.trans (congrArg some (tableEntry_phys hd hlt).symm)

/-- `get_pte` with `create` changes no translation, also when it gives up half
way; a result is the leaf entry of the address. -/
theorem getPte_create (ha : FreshBlocks alloc avail) (hok : s.Ok avail root) (v : BitVec 64) :
    SamePages avail root s (s.getPte alloc root v true).2 ∧
      ∀ e, (s.getPte alloc root v true).1 = some e →
        ∃ t, tableAt (s.getPte alloc root v true).2.mem root (pathOf v) = some t ∧
          e = entryAddr t (ptIndex v) := by
  have hlt1 : pml4Index v < 512 := indexAt_lt 39 v
  have hlt2 : pdptIndex v < 512 := indexAt_lt 30 v
  have hlt3 : pdIndex v < 512 := indexAt_lt 21 v
  unfold Vmm.getPte
  have h1 := nextTable_create ha hok (p := []) (i := pml4Index v) ⟨by simp, by simpa using hlt1⟩ rfl
  rcases hr1 : s.nextTable alloc (entryAddr root (pml4Index v)) true with ⟨r1, s1⟩
  rw [hr1] at h1
  obtain ⟨⟨hok1, htr1⟩, hn1⟩ := h1
  cases r1 with
  | none => exact ⟨⟨hok1, htr1⟩, by simp⟩
  | some pdpt =>
    have h2 := nextTable_create ha hok1 (p := [pml4Index v]) (i := pdptIndex v)
      ⟨by simp, by simpa using ⟨hlt1, hlt2⟩⟩ (hn1 pdpt rfl)
    dsimp only
    rcases hr2 : s1.nextTable alloc (entryAddr pdpt (pdptIndex v)) true with ⟨r2, s2⟩
    rw [hr2] at h2
    obtain ⟨⟨hok2, htr2⟩, hn2⟩ := h2
    have htr12 : ∀ w, lookup s2.mem root w = lookup s.mem root w := fun w => (htr2 w).trans (htr1 w)
    cases r2 with
    | none => exact ⟨⟨hok2, htr12⟩, by simp⟩
    | some pd =>
      have h3 := nextTable_create ha hok2 (p := [pml4Index v, pdptIndex v]) (i := pdIndex v)
        ⟨by simp, by simpa using ⟨hlt1, hlt2, hlt3⟩⟩ (hn2 pd rfl)
      dsimp only
      rcases hr3 : s2.nextTable alloc (entryAddr pd (pdIndex v)) true with ⟨r3, s3⟩
      rw [hr3] at h3
      obtain ⟨⟨hok3, htr3⟩, hn3⟩ := h3
      have htr13 : ∀ w, lookup s3.mem root w = lookup s.mem root w := fun w => (htr3 w).trans (htr12 w)
      cases r3 with
      | none => exact ⟨⟨hok3, htr13⟩, by simp⟩
      | some pt => exact ⟨⟨hok3, htr13⟩, fun e he => ⟨pt, hn3 pt rfl, (Option.some.inj he).symm⟩⟩

theorem nextTable_lookup (s : Vmm σ) (t i : Nat) :
    s.nextTable alloc (entryAddr t i) false = (child s.mem t i, s) := by
  unfold Vmm.nextTable child
  split <;> rfl

theorem getPte_lookup (s : Vmm σ) (root : Nat) (v : BitVec 64) :
    s.getPte alloc root v false =
      ((tableAt s.mem root (pathOf v)).map (entryAddr · (ptIndex v)), s) := by
  have hpath : tableAt s.mem root (pathOf v) = (child s.mem root (pml4Index v)).bind fun pdpt =>
      (child s.mem pdpt (pdptIndex v)).bind fun pd => child s.mem pd (pdIndex v) := by
    simp [tableAt, pathOf, Option.bind_assoc]
  rw [hpath, Vmm.getPte, nextTable_lookup]
  cases child s.mem root (pml4Index v) with
  | none => rfl
  | some pdpt =>
    dsimp only
    rw [nextTable_lookup, Option.bind_some]
    cases child s.mem pdpt (pdptIndex v) with
    | none => rfl
    | some pd =>
      dsimp only
      rw [nextTable_lookup, Option.bind_some]
      cases child s.mem pd (pdIndex v) <;> rfl

theorem vmmGetPhys_eq (s : Vmm σ) (root : Nat) (v : BitVec 64) :
    s.vmmGetPhys alloc root v = translate s.mem root v := by
  rw [Vmm.vmmGetPhys, getPte_lookup, translate]
  cases tableAt s.mem root (pathOf v) <;> rfl

/-- The entry `vmm_map` stores is present and leads to the masked address, whatever the flags. -/
private theorem leafEntry_phys (phys flags : BitVec 64) :
    let e := (phys &&& pteAddrMask) ||| (flags &&& ~~~pteAddrMask) ||| ptePresent
    pteIsPresent e = true ∧ pteGetPhys e = pteGetPhys phys := by
  intro e
  constructor
  · have hbit : (e &&& ptePresent).getLsbD 0 = true := by simp [e, ptePresent]
    rw [pteIsPresent, bne_iff_ne]
    intro he
    rw [he] at hbit
    simp at hbit
  · refine congrArg BitVec.toNat (BitVec.eq_of_getLsbD_eq (fun i hi => ?_))
    have hlow : (ptePresent &&& pteAddrMask).getLsbD i = false := by
      rw [show ptePresent &&& pteAddrMask = 0#64 by decide]
      simp
    simp only [e, BitVec.getLsbD_and, BitVec.getLsbD_or, BitVec.getLsbD_not, hi, decide_true] at hlow ⊢
    generalize pteAddrMask.getLsbD i = mask at *
    generalize ptePresent.getLsbD i = one at *
    cases mask <;> cases one <;> simp at hlow ⊢

theorem lookup_congr (m : Memory) (root : Nat) {v w : BitVec 64} (h : pageOf w = pageOf v) :
    lookup m root w = lookup m root v := by
  obtain ⟨hp, hi⟩ := (pageOf_eq_iff w v).mp h
  rw [lookup, lookup, hp, hi]

/-- A store to the leaf entry of `virt` in a state with a well-formed tree. -/
private theorem store_leaf (hok : s.Ok avail root) {virt : BitVec 64} {t : Nat}
    (ht : tableAt s.mem root (pathOf virt) = some t) (e : BitVec 64) :
    (s.store (entryAddr t (ptIndex virt)) e).Ok avail root ∧
      ∀ w, lookup (s.store (entryAddr t (ptIndex virt)) e).mem root w =
        if pageOf w = pageOf virt then (if pteIsPresent e then some (pteGetPhys e) else none)
        else lookup s.mem root w := by
  obtain ⟨htree, htab, hself, hother⟩ := leaf_store hok.tree ht e
  refine ⟨⟨htree, fun p u hp hu => hok.apart p u hp (htab p hp ▸ hu)⟩, fun w => ?_⟩
  split
  · next h => exact (lookup_congr _ _ h).trans hself
  · next h => exact hother w h

/-- `vmm_map` on success enters the page; on failure, at any level, it changes no page. -/
theorem vmmMap_lookup (ha : FreshBlocks alloc avail) (hok : s.Ok avail root) (phys virt flags : BitVec 64) :
    let r := s.vmmMap alloc root phys virt flags
    r.2.Ok avail root ∧
      ∀ w, lookup r.2.mem root w =
        if r.1 ∧ pageOf w = pageOf virt then some (pteGetPhys phys) else lookup s.mem root w := by
  obtain ⟨⟨hok', htr⟩, hleaf⟩ := getPte_create ha hok virt
  unfold Vmm.vmmMap
  rcases hr : s.getPte alloc root virt true with ⟨e, s'⟩
  rw [hr] at hok' htr hleaf
  cases e with
  | none => exact ⟨hok', fun w => by simpa using htr w⟩
  | some a =>
    obtain ⟨t, ht, rfl⟩ := hleaf a rfl
    obtain ⟨hpres, hphys⟩ := leafEntry_phys phys flags
    obtain ⟨hok'', hst⟩ := store_leaf hok' ht
      ((phys &&& pteAddrMask) ||| (flags &&& ~~~pteAddrMask) ||| ptePresent)
    refine ⟨hok'', fun w => ?_⟩
    rw [hst w, hpres, hphys, htr w]
    simp

theorem vmmMap_spec (ha : FreshBlocks alloc avail) (hok : s.Ok avail root) (phys virt flags : BitVec 64) :
    let r := s.vmmMap alloc root phys virt flags
    r.2.Ok avail root ∧
      ∀ w, translate r.2.mem root w =
        if r.1 ∧ pageOf w = pageOf virt then pteGetPhys phys else translate s.mem root w := by
  obtain ⟨hok', hpages⟩ := vmmMap_lookup ha hok phys virt flags
  refine ⟨hok', fun w => ?_⟩
  rw [translate_eq_lookup, translate_eq_lookup, hpages w]
  split <;> rfl

theorem vmmUnmap_lookup (alloc : AllocateBlock σ) (hok : s.Ok avail root) (virt : BitVec 64) :
    let s' := s.vmmUnmap alloc root virt
    s'.Ok avail root ∧
      ∀ w, lookup s'.mem root w = if pageOf w = pageOf virt then none else lookup s.mem root w := by
  unfold Vmm.vmmUnmap
  rw [getPte_lookup]
  cases ht : tableAt s.mem root (pathOf virt) with
  | none =>
    refine ⟨hok, fun w => ?_⟩
    change lookup s.mem root w = _
    by_cases h : pageOf w = pageOf virt
    · rw [if_pos h, lookup_congr _ _ h, lookup, ht, Option.bind_none]
    · rw [if_neg h]
  | some t =>
    obtain ⟨hok', hst⟩ := store_leaf hok ht 0#64
    exact ⟨hok', hst⟩

theorem vmmUnmap_spec (alloc : AllocateBlock σ) (hok : s.Ok avail root) (virt : BitVec 64) :
    let s' := s.vmmUnmap alloc root virt
    s'.Ok avail root ∧
      ∀ w, translate s'.mem root w = if pageOf w = pageOf virt then 0 else translate s.mem root w := by
  obtain ⟨hok', hpages⟩ := vmmUnmap_lookup alloc hok virt
  refine ⟨hok', fun w => ?_⟩
  rw [translate_eq_lookup, translate_eq_lookup, hpages w]
  split <;> rfl

/-- A call on one table. -/
inductive Call where
  | vmmMap (phys virt flags : BitVec 64)
  | vmmUnmap (virt : BitVec 64)

/-- The result of a call (unmapping has none) and the state after it. -/
def Vmm.exec (alloc : AllocateBlock σ) (root : Nat) (s : Vmm σ) : Call → Bool × Vmm σ
  | .vmmMap phys virt flags => s.vmmMap alloc root phys virt flags
  | .vmmUnmap virt => (true, s.vmmUnmap alloc root virt)

/-- The same call on a map from page numbers to frame addresses, 0 for none. -/
def Call.apply (pages : Nat → Nat) : Call → Bool → (Nat → Nat)
  | .vmmMap phys virt _, ok => if ok then Function.update pages (pageOf virt) (pteGetPhys phys) else pages
  | .vmmUnmap virt, _ => Function.update pages (pageOf virt) 0

/-- Calls in order, with their results, on the tables and on the map. -/
def Vmm.execAll (alloc : AllocateBlock σ) (root : Nat) : Vmm σ → List Call → List Bool × Vmm σ
  | s, [] => ([], s)
  | s, c :: cs =>
    let r := s.exec alloc root c
    let rs := Vmm.execAll alloc root r.2 cs
    (r.1 :: rs.1, rs.2)

def Call.applyAll : (Nat → Nat) → List Call → List Bool → (Nat → Nat)
  | pages, c :: cs, ok :: oks => Call.applyAll (c.apply pages ok) cs oks
  | pages, _, _ => pages

private theorem exec_spec (ha : FreshBlocks alloc avail) (hok : s.Ok avail root) {pages : Nat → Nat}
    (hp : ∀ v, translate s.mem root v = pages (pageOf v)) (c : Call) :
    (s.exec alloc root c).2.Ok avail root ∧
      ∀ v, translate (s.exec alloc root c).2.mem root v = c.apply pages (s.exec alloc root c).1 (pageOf v) := by
  cases c with
  | vmmMap phys virt flags =>
    obtain ⟨hok', htr⟩ := vmmMap_spec ha hok phys virt flags
    refine ⟨hok', fun v => (htr v).trans ?_⟩
    rw [hp v]
    cases hr : (s.vmmMap alloc root phys virt flags).1 with
    | true => simp [Vmm.exec, Call.apply, hr, Function.update_apply]
    | false => simp [Vmm.exec, Call.apply, hr]
  | vmmUnmap virt =>
    obtain ⟨hok', htr⟩ := vmmUnmap_spec alloc hok virt
    refine ⟨hok', fun v => (htr v).trans ?_⟩
    simp only [Call.apply, Function.update_apply, hp v]

private theorem execAll_spec (ha : FreshBlocks alloc avail) (hok : s.Ok avail root) {pages : Nat → Nat}
    (hp : ∀ v, translate s.mem root v = pages (pageOf v)) (cs : List Call) :
    (s.execAll alloc root cs).2.Ok avail root ∧
      ∀ v, translate (s.execAll alloc root cs).2.mem root v =
        Call.applyAll pages cs (s.execAll alloc root cs).1 (pageOf v) := by
  induction cs generalizing s pages with
  | nil => exact ⟨hok, hp⟩
  | cons c cs ih =>
    obtain ⟨hok', hp'⟩ := exec_spec ha hok hp c
    exact ih hok' hp'

/-- Map and unmap act on one page only and keep the tree well formed, also when
no table can be allocated; so any sequence of calls is a sequence of updates of
a map from page numbers to frames. -/
theorem page_table_refines_map (ha : FreshBlocks alloc avail) (hok : s.Ok avail root) :
    (∀ phys virt flags s', s.vmmMap alloc root phys virt flags = (true, s') →
      s'.vmmGetPhys alloc root virt = (phys &&& pteAddrMask).toNat) ∧
    (∀ phys virt flags ok s', s.vmmMap alloc root phys virt flags = (ok, s') →
      TreeOk s'.mem root ∧
      ∀ w, pageOf w ≠ pageOf virt → s'.vmmGetPhys alloc root w = s.vmmGetPhys alloc root w) ∧
    (∀ virt, TreeOk (s.vmmUnmap alloc root virt).mem root ∧
      (s.vmmUnmap alloc root virt).vmmGetPhys alloc root virt = 0 ∧
      ∀ w, pageOf w ≠ pageOf virt →
        (s.vmmUnmap alloc root virt).vmmGetPhys alloc root w = s.vmmGetPhys alloc root w) ∧
    ∀ pages, (∀ v, s.vmmGetPhys alloc root v = pages (pageOf v)) → ∀ cs,
      TreeOk (s.execAll alloc root cs).2.mem root ∧
      ∀ v, (s.execAll alloc root cs).2.vmmGetPhys alloc root v =
        Call.applyAll pages cs (s.execAll alloc root cs).1 (pageOf v) := by
  simp only [vmmGetPhys_eq]
  refine ⟨?_, ?_, ?_, ?_⟩
  · intro phys virt flags s' h
    have hs := (vmmMap_spec ha hok phys virt flags).2 virt
    rw [h] at hs
    exact hs.trans (if_pos ⟨rfl, rfl⟩)
  · intro phys virt flags ok s' h
    obtain ⟨hok', hs⟩ := vmmMap_spec ha hok phys virt flags
    rw [h] at hok' hs
    exact ⟨hok'.tree, fun w hw => (hs w).trans (by simp [hw])⟩
  · intro virt
    obtain ⟨hok', hs⟩ := vmmUnmap_spec alloc hok virt
    exact ⟨hok'.tree, (hs virt).trans (by simp), fun w hw => (hs w).trans (by simp [hw])⟩
  · intro pages hp cs
    obtain ⟨hok', hs⟩ := execAll_spec ha hok hp cs
    exact ⟨hok'.tree, hs⟩

section blockAllocator
open PhysicalMem State

/-- A bitmap that counts correctly, which every call keeps. -/
def Bitmap := {s : State // s.maxBlocks < 2^31 ∧ s.usedBlocks = s.setCount}

/-- `allocate_blocks(1)` of physical_mem.c. -/
def allocateBlock : AllocateBlock Bitmap := fun s =>
  let r := s.1.allocateBlocks 1
  have hi : (Ledger.mk r.2 _).Inv := Ledger.Step.inv (l := ⟨s.1, []⟩) (c := .allocateBlocks 1)
    ⟨s.2.1, s.2.2, by simp, by simp, by simp, .nil⟩ rfl
  (if r.1 = 0 then none else some r.1, ⟨r.2, hi.bound, hi.counted⟩)

/-- The frame of a clear bit. -/
def Bitmap.Clear (s : Bitmap) (f : Nat) : Prop := s.1.testBlock (f / blockSize) = false

/-- The block allocator meets what the paging code relies on. -/
theorem allocateBlock_fresh : FreshBlocks allocateBlock Bitmap.Clear where
  fresh := by
    intro a f a' h
    obtain ⟨hr, rfl⟩ := Prod.mk.inj h
    obtain ⟨hm, hc⟩ := a.2
    rcases allocateBlocks_cases hm hc 1 with he | ⟨b, hb, hend, he⟩
    · simp [he] at hr
    · have hbit := testBlock_setRun (by omega) hend b
      have hfree := (hb.free 0 (by decide)).2
      have hb' : b * blockSize / blockSize = b := Nat.mul_div_cancel _ (by decide)
      obtain rfl : b * blockSize = f := by
        rw [he] at hr
        split at hr
        · cases hr
        · exact Option.some.inj hr
      refine ⟨?_, Nat.dvd_mul_left _ _, ?_, ?_⟩
      · rw [Bitmap.Clear, hb']; exact hfree
      · unfold blockSize; omega
      · simp only [Bitmap.Clear, hb', he, testBlock_withUsed, hbit]
        simp
  mono := by
    intro a g h
    obtain ⟨hm, hc⟩ := a.2
    rcases allocateBlocks_cases hm hc 1 with he | ⟨b, hb, hend, he⟩
    · simpa [Bitmap.Clear, allocateBlock, he] using h
    · simp only [Bitmap.Clear, allocateBlock, he, testBlock_withUsed, testBlock_setRun (by omega) hend,
        Bool.or_eq_false_iff] at h
      exact h.1

/-- An empty table in a reserved block 1. -/
private theorem empty_ok (s : Bitmap) (hs : s.1.testBlock 1 = true) :
    (⟨fun _ => 0#64, s⟩ : Vmm Bitmap).Ok Bitmap.Clear 4096 := by
  have hroot : ∀ p t, tableAt (fun _ => 0#64) 4096 p = some t → p = [] ∧ t = 4096 := by
    intro p t h
    induction p using List.reverseRecOn with
    | nil => exact ⟨rfl, (Option.some.inj h).symm⟩
    | append_singleton p i ih =>
      rw [tableAt_snoc] at h
      obtain ⟨u, -, hc⟩ := Option.bind_eq_some_iff.mp h
      simp [child, pteIsPresent] at hc
  refine ⟨⟨Nat.dvd_refl _, ?_, ?_⟩, ?_⟩
  · intro p q t _ _ hp hq
    rw [(hroot p t hp).1, (hroot q t hq).1]
  · intro p i t _ _ h
    simp [pteIsPresent] at h
  · intro p t _ hp hav
    obtain ⟨-, rfl⟩ := hroot p t hp
    exact absurd (hav.symm.trans hs) (by decide)

theorem page_table_refines_map_empty :
    let s : Bitmap := ⟨⟨fun _ => 3#32, 64, 4⟩, by decide, by decide⟩
    ∃ s', (⟨fun _ => 0#64, s⟩ : Vmm Bitmap).vmmMap allocateBlock 4096 0x5123#64 0x7000#64 2#64 = (true, s') ∧
      s'.vmmGetPhys allocateBlock 4096 0x7000#64 = 0x5000 := by
  intro s
  refine ⟨_, Prod.ext (by decide +kernel) rfl, ?_⟩
  exact (page_table_refines_map allocateBlock_fresh (empty_ok s (by decide))).1 0x5123#64 0x7000#64 2#64 _
    (Prod.ext (by decide +kernel) rfl)

end blockAllocator
end GeckoOS.Mem.Paging
