import GeckoOS.Mem.PageMap

/-! `get_pte` as a walk along a path of indices: which frames it dereferences and
clears on the way, and what the tables it adds do to the rest of memory. -/
namespace GeckoOS.Mem.Paging

/-- The physical addresses below are those that every address space maps to themselves. -/
def identityEnd : Nat := 0x1000000

namespace Vmm
variable {σ : Type} (alloc : AllocateBlock σ)

/-- From the table `t` through the indices `is`; missing tables are made. -/
def walk (s : Vmm σ) (t : Nat) : List Nat → Option Nat × Vmm σ
  | [] => (some t, s)
  | i :: is =>
    match s.nextTable alloc (entryAddr t i) true with
    | (none, s) => (none, s)
    | (some u, s) => s.walk u is

/-- The frame that `alloc_table` clears if the entry is not present. -/
def cleared (s : Vmm σ) (entry : Nat) : List (Memory × Nat) :=
  if pteIsPresent (s.mem entry) then [] else ((alloc s.phys).1.map fun f => (s.mem, f)).toList

/-- The frames that the walk dereferences or clears, each with the memory at that moment. -/
def touched (s : Vmm σ) (t : Nat) : List Nat → List (Memory × Nat)
  | [] => [(s.mem, t)]
  | i :: is =>
    (s.mem, t) :: s.cleared alloc (entryAddr t i) ++
      match s.nextTable alloc (entryAddr t i) true with
      | (none, _) => []
      | (some u, s) => s.touched u is

/-- How many tables the walk has to make. -/
def missing (m : Memory) (t : Nat) : List Nat → Nat
  | [] => 0
  | i :: is =>
    match child m t i with
    | none => is.length + 1
    | some u => missing m u is

end Vmm

variable {σ : Type} {alloc : AllocateBlock σ} {avail : σ → Nat → Prop} {low : σ → Nat} {s s' s'' : Vmm σ}
  {root t : Nat} {p is : List Nat}

/-- `get_pte` is the walk along the indices of the address. -/
theorem getPte_eq_walk (s : Vmm σ) (root : Nat) (v : BitVec 64) :
    s.getPte alloc root v true =
      ((s.walk alloc root (pathOf v)).1.map (entryAddr · (ptIndex v)), (s.walk alloc root (pathOf v)).2) := by
  simp only [Vmm.getPte, pathOf, Vmm.walk]
  rcases s.nextTable alloc (entryAddr root (pml4Index v)) true with ⟨r, s⟩
  cases r with
  | none => rfl
  | some pdpt =>
    dsimp only
    rcases s.nextTable alloc (entryAddr pdpt (pdptIndex v)) true with ⟨r, s⟩
    cases r with
    | none => rfl
    | some pd =>
      dsimp only
      rcases s.nextTable alloc (entryAddr pd (pdIndex v)) true with ⟨r, s⟩
      cases r <;> rfl

/-- `low` counts free blocks below the end of the identity map, and the first of
them is handed out before any other block. -/
structure LowFirst (alloc : AllocateBlock σ) (low : σ → Nat) : Prop where
  le : ∀ a, low a ≤ low (alloc a).2 + 1
  first : ∀ a f a', alloc a = (some f, a') → 0 < low a → f < identityEnd

/-- Besides, blocks are frames, and block 0 is not handed out. -/
structure LowBlocks (alloc : AllocateBlock σ) (avail : σ → Nat → Prop) (low : σ → Nat) : Prop
    extends FreshBlocks alloc avail, LowFirst alloc low where
  frame : ∀ a f, avail a f → f ≠ 0 ∧ 4096 ∣ f

/-- What the tables that are added to the tree of `root` leave alone. -/
structure Grows (avail : σ → Nat → Prop) (root : Nat) (s s' : Vmm σ) : Prop where
  ok : s'.Ok avail root
  tables : ∀ p t, IsPath p → tableAt s'.mem root p = some t → tableAt s.mem root p = some t ∨ avail s.phys t
  mono : ∀ f, avail s'.phys f → avail s.phys f
  frame : ∀ u, 4096 ∣ u → (∀ p, IsPath p → tableAt s.mem root p ≠ some u) → ¬ avail s.phys u →
    ∀ i < 512, s'.mem (entryAddr u i) = s.mem (entryAddr u i)

/-- They do not change a translation. -/
structure GrowsOnly (avail : σ → Nat → Prop) (root : Nat)
  (s s' : Vmm σ) : Prop extends Grows avail root s s' where
  pages : ∀ v, translate s'.mem root v = translate s.mem root v

theorem Grows.trans (h : Grows avail root s s') (h' : Grows avail root s' s'') : Grows avail root s s'' where
  ok := h'.ok
  tables := by
    intro p t hp ht
    rcases h'.tables p t hp ht with hold | hav
    · exact h.tables p t hp hold
    · exact .inr (h.mono t hav)
  mono := fun f hf => h.mono f (h'.mono f hf)
  frame := by
    intro u hd hnot hav i hi
    have hnot' : ∀ p, IsPath p → tableAt s'.mem root p ≠ some u := by
      intro p hp ht
      rcases h.tables p u hp ht with hold | hnew
      · exact hnot p hp hold
      · exact hav hnew
    rw [h'.frame u hd hnot' (fun hu => hav (h.mono u hu)) i hi, h.frame u hd hnot hav i hi]

namespace GrowsOnly

theorem refl (hok : s.Ok avail root) : GrowsOnly avail root s s :=
  ⟨⟨hok, fun _ _ _ ht => .inl ht, fun _ hf => hf, fun _ _ _ _ _ _ => rfl⟩, fun _ => rfl⟩

theorem trans (h : GrowsOnly avail root s s') (h' : GrowsOnly avail root s' s'') : GrowsOnly avail root s s'' :=
  ⟨h.toGrows.trans h'.toGrows, fun v => (h'.pages v).trans (h.pages v)⟩

end GrowsOnly

/-- A frame of the tree, or one that was available, and memory in which the tree
of `root` has only grown. -/
structure Reached (avail : σ → Nat → Prop) (root : Nat) (s : Vmm σ) (x : Memory × Nat) : Prop where
  moment : ∃ s₁, GrowsOnly avail root s s₁ ∧ x.1 = s₁.mem
  frame : (∃ q, IsPath q ∧ tableAt s.mem root q = some x.2) ∨ avail s.phys x.2

theorem Reached.of_grows {x : Memory × Nat} (hg : GrowsOnly avail root s s') (h : Reached avail root s' x) :
    Reached avail root s x := by
  obtain ⟨⟨s₁, hs₁, hmem⟩, hframe⟩ := h
  refine ⟨⟨s₁, hg.trans hs₁, hmem⟩, ?_⟩
  rcases hframe with ⟨q, hq, hxq⟩ | hav
  · exact (hg.tables q _ hq hxq).imp_left fun hold => ⟨q, hq, hold⟩
  · exact .inr (hg.mono _ hav)

/-- Everything one level of the walk can do. -/
theorem nextTable_cases (ha : FreshBlocks alloc avail) (s : Vmm σ) (t i : Nat) :
    (∃ u, child s.mem t i = some u ∧ s.nextTable alloc (entryAddr t i) true = (some u, s) ∧
      s.cleared alloc (entryAddr t i) = []) ∨
    child s.mem t i = none ∧
      ((∃ a, alloc s.phys = (none, a) ∧ s.nextTable alloc (entryAddr t i) true = (none, ⟨s.mem, a⟩) ∧
        s.cleared alloc (entryAddr t i) = []) ∨
      ∃ f a, alloc s.phys = (some f, a) ∧
        s.nextTable alloc (entryAddr t i) true = (some f, ⟨enterTable s.mem t i f, a⟩) ∧
        s.cleared alloc (entryAddr t i) = [(s.mem, f)]) := by
  unfold Vmm.nextTable Vmm.cleared child
  by_cases hpres : pteIsPresent (s.mem (entryAddr t i)) = true
  · left
    exact ⟨_, if_pos hpres, if_pos hpres, if_pos hpres⟩
  · right
    rw [if_neg hpres, if_neg hpres, if_neg hpres, if_pos rfl, Vmm.allocTable]
    rcases hal : alloc s.phys with ⟨r, a⟩
    cases r with
    | none => exact ⟨rfl, .inl ⟨a, rfl, rfl, rfl⟩⟩
    | some f =>
      obtain ⟨-, hd, hlt, -⟩ := ha.fresh _ _ _ hal
      refine ⟨rfl, .inr ⟨f, a, rfl, ?_, rfl⟩⟩
      have hentry : (Vmm.store ⟨Vmm.clearTable s.mem f, a⟩ (entryAddr t i)
          (BitVec.ofNat 64 f ||| ptePresent ||| pteWritable)) = ⟨enterTable s.mem t i f, a⟩ := rfl
      have hphys : pteGetPhys (enterTable s.mem t i f (entryAddr t i)) = f := by
        rw [enterTable, Function.update_self]
        exact tableEntry_phys hd hlt
      dsimp only
      rw [hentry, hphys]

section walk
variable (ha : FreshBlocks alloc avail) (hl : LowFirst alloc low)
include ha

private theorem grows_enter (hok : s.Ok avail root) {i f : Nat} {a : σ} (hp : IsPath (p ++ [i]))
    (ht : tableAt s.mem root p = some t) (hnone : child s.mem t i = none) (hal : alloc s.phys = (some f, a)) :
    GrowsOnly avail root s ⟨enterTable s.mem t i f, a⟩ ∧
      tableAt (enterTable s.mem t i f) root (p ++ [i]) = some f ∧
      ∀ q u, IsPath q → tableAt (enterTable s.mem t i f) root q = some u → u = f ∨
      tableAt s.mem root q = some u := by
  obtain ⟨hav, hd, hlt, hnot⟩ := ha.fresh _ _ _ hal
  have hmono : ∀ g, avail a g → avail s.phys g := fun g hg => ha.mono _ g (by rw [hal]; exact hg)
  have hfresh : ∀ q, IsPath q → tableAt s.mem root q ≠ some f := fun q hq he => hok.apart q f hq he hav
  have habs : pteIsPresent (s.mem (entryAddr t i)) = false := by
    unfold child at hnone
    split at hnone
    · cases hnone
    · next h => exact Bool.not_eq_true _ ▸ h
  obtain ⟨htree, hold, hnew, htrans⟩ := enterTable_ok hok.tree hp ht habs hd hlt hfresh
  have htd := tableAt_dvd hok.tree.aligned ht
  have hi : i < 512 := hp.2 i (by simp)
  refine ⟨⟨⟨⟨htree, fun q u hq hu hau => ?_⟩, fun q u hq hu => ?_, hmono, fun u hu hout hau j hj => ?_⟩,
    fun v => translate_of_lookup (htrans v)⟩, hnew, hold⟩
  · rcases hold q u hq hu with rfl | h
    · exact hnot hau
    · exact hok.apart q u hq h (hmono u hau)
  · rcases hold q u hq hu with rfl | h
    · exact .inr hav
    · exact .inl h
  · have hut : ¬ (u = t ∧ j = i) := fun he => hout p (isPath_of_append hp) (he.1 ▸ ht)
    exact enter_other hu htd hd (fun he => hau (he ▸ hav)) hi hj hut

/-- The walk only adds tables, and touches no other frames. -/
theorem walk_grows (hok : s.Ok avail root) (hp : IsPath (p ++ is)) (ht : tableAt s.mem root p = some t) :
    GrowsOnly avail root s (s.walk alloc t is).2 ∧
      (∀ u, (s.walk alloc t is).1 = some u → tableAt (s.walk alloc t is).2.mem root (p ++ is) = some u) ∧
      ∀ x ∈ s.touched alloc t is, Reached avail root s x := by
  induction is generalizing s t p with
  | nil =>
    rw [List.append_nil] at hp ⊢
    refine ⟨.refl hok, fun u hu => ht.trans hu, fun x hx => ?_⟩
    rw [List.mem_singleton.mp hx]
    exact ⟨⟨s, .refl hok, rfl⟩, .inl ⟨p, hp, ht⟩⟩
  | cons i is ih =>
    rw [List.append_cons] at hp ⊢
    have hpi : IsPath (p ++ [i]) := isPath_of_prefix hp
    have hself : Reached avail root s (s.mem, t) := ⟨⟨s, .refl hok, rfl⟩, .inl ⟨p, isPath_of_append hpi, ht⟩⟩
    unfold Vmm.walk Vmm.touched
    rcases nextTable_cases ha s t i with ⟨u, hu, heq, hcl⟩ | ⟨hnone, ⟨a, hal, heq, hcl⟩ | ⟨f, a, hal, heq, hcl⟩⟩
    · -- the table is there
      have hu' : tableAt s.mem root (p ++ [i]) = some u := by rw [tableAt_snoc, ht, Option.bind_some, hu]
      obtain ⟨hg, hres, htouch⟩ := ih hok hp hu'
      rw [heq, hcl]
      refine ⟨hg, hres, fun x hx => ?_⟩
      rcases List.mem_cons.mp hx with rfl | hx
      · exact hself
      · exact htouch x hx
    · -- no block is left
      have hmono : ∀ g, avail a g → avail s.phys g := fun g hg => ha.mono _ g (by rw [hal]; exact hg)
      rw [heq, hcl]
      refine ⟨⟨⟨⟨hok.tree, fun q u hq hu hau => hok.apart q u hq hu (hmono u hau)⟩, fun _ _ _ hu =>
        .inl hu, hmono,
        fun _ _ _ _ _ _ => rfl⟩, fun _ => rfl⟩, by simp, fun x hx => ?_⟩
      rw [List.mem_singleton.mp hx]
      exact hself
    · -- a new table
      obtain ⟨hg, hnew, -⟩ := grows_enter ha hok hpi ht hnone hal
      obtain ⟨hg', hres, htouch⟩ := ih hg.ok hp hnew
      rw [heq, hcl]
      refine ⟨hg.trans hg', hres, fun x hx => ?_⟩
      rcases List.mem_cons.mp hx with rfl | hx
      · exact hself
      · rcases List.mem_cons.mp hx with rfl | hx
        · exact ⟨⟨s, .refl hok, rfl⟩, .inr (ha.fresh _ _ _ hal).1⟩
        · exact .of_grows hg (htouch x hx)

omit ha in
theorem missing_le (m : Memory) (t : Nat) (is : List Nat) : Vmm.missing m t is ≤ is.length := by
  induction is generalizing t with
  | nil => exact Nat.le_refl 0
  | cons i is ih =>
    unfold Vmm.missing
    cases child m t i with
    | none => exact Nat.le_refl _
    | some u => exact Nat.le_succ_of_le (ih u)

/-- A table that was added has been touched. -/
theorem walk_tables (hok : s.Ok avail root) (hp : IsPath (p ++ is)) (ht : tableAt s.mem root p = some t)
    (q : List Nat)
    (u : Nat) (hq : IsPath q) (hu : tableAt (s.walk alloc t is).2.mem root q = some u) :
    tableAt s.mem root q = some u ∨ avail s.phys u ∧ ∃ m, (m, u) ∈ s.touched alloc t is := by
  induction is generalizing s t p with
  | nil => exact .inl hu
  | cons i is ih =>
    rw [List.append_cons] at hp
    have hpi : IsPath (p ++ [i]) := isPath_of_prefix hp
    unfold Vmm.walk at hu
    unfold Vmm.touched
    rcases nextTable_cases ha s t i with ⟨v, hv, heq, hcl⟩ | ⟨hnone, ⟨a, hal, heq, hcl⟩ | ⟨f, a, hal, heq, hcl⟩⟩
    · have hv' : tableAt s.mem root (p ++ [i]) = some v := by rw [tableAt_snoc, ht, Option.bind_some, hv]
      rw [heq] at hu
      rw [heq, hcl]
      rcases ih hok hp hv' hu with hold | ⟨hav, m, hm⟩
      · exact .inl hold
      · exact .inr ⟨hav, m, List.mem_cons_of_mem _ hm⟩
    · rw [heq] at hu
      exact .inl hu
    · obtain ⟨hg, hnew, hold⟩ := grows_enter ha hok hpi ht hnone hal
      rw [heq] at hu
      rw [heq, hcl]
      rcases ih hg.ok hp hnew hu with hu | ⟨hav, m, hm⟩
      · rcases hold q u hq hu with rfl | hu
        · exact .inr ⟨(ha.fresh _ _ _ hal).1, s.mem, List.mem_cons_of_mem _ List.mem_cons_self⟩
        · exact .inl hu
      · exact .inr ⟨hg.mono u hav, m, List.mem_cons_of_mem _ (List.mem_cons_of_mem _ hm)⟩

include hl

/-- With a low block for each missing table, the frames that are touched are low
or tables already. -/
theorem walk_low (hok : s.Ok avail root) (hp : IsPath (p ++ is)) (ht : tableAt s.mem root p = some t)
    (hroom : Vmm.missing s.mem t is ≤ low s.phys) :
    ∀ x ∈ s.touched alloc t is, (∃ q, IsPath q ∧ tableAt s.mem root q = some x.2) ∨ x.2 < identityEnd := by
  induction is generalizing s t p with
  | nil =>
    rw [List.append_nil] at hp
    intro x hx
    rw [List.mem_singleton.mp hx]
    exact .inl ⟨p, hp, ht⟩
  | cons i is ih =>
    intro x hx
    rw [List.append_cons] at hp
    have hpi : IsPath (p ++ [i]) := isPath_of_prefix hp
    have hself : ∃ q, IsPath q ∧ tableAt s.mem root q = some t := ⟨p, isPath_of_append hpi, ht⟩
    unfold Vmm.touched at hx
    unfold Vmm.missing at hroom
    rcases nextTable_cases ha s t i with ⟨u, hu, heq, hcl⟩ | ⟨hnone, ⟨a, hal, heq, hcl⟩ | ⟨f, a, hal, heq, hcl⟩⟩
    · have hu' : tableAt s.mem root (p ++ [i]) = some u := by rw [tableAt_snoc, ht, Option.bind_some, hu]
      rw [hu] at hroom
      rw [heq, hcl] at hx
      rcases List.mem_cons.mp hx with rfl | hx
      · exact .inl hself
      · exact ih hok hp hu' hroom x hx
    · rw [heq, hcl] at hx
      rw [List.mem_singleton.mp hx]
      exact .inl hself
    · rw [hnone] at hroom
      dsimp only at hroom
      have hlow : f < identityEnd := hl.first _ _ _ hal (by omega)
      have hleft : low s.phys ≤ low a + 1 := by
        have := hl.le s.phys
        rwa [hal] at this
      have hroom' : Vmm.missing (enterTable s.mem t i f) f is ≤ low a := by
        have := missing_le (enterTable s.mem t i f) f is
        omega
      obtain ⟨hg, hnew, hold⟩ := grows_enter ha hok hpi ht hnone hal
      rw [heq, hcl] at hx
      rcases List.mem_cons.mp hx with rfl | hx
      · exact .inl hself
      · rcases List.mem_cons.mp hx with rfl | hx
        · exact .inr hlow
        · rcases ih hg.ok hp hnew hroom' x hx with ⟨q, hq, hxq⟩ | hxl
          · rcases hold q _ hq hxq with he | hxq
            · exact .inr (he ▸ hlow)
            · exact .inl ⟨q, hq, hxq⟩
          · exact .inr hxl

end walk

section vmmMap
variable (ha : FreshBlocks alloc avail) (hok : s.Ok avail root) (phys virt flags : BitVec 64)
include ha hok

/-- `vmm_map` adds tables to the tree and writes to one leaf entry. -/
theorem vmmMap_cases :
    ∃ s₁, s₁ = (s.walk alloc root (pathOf virt)).2 ∧ GrowsOnly avail root s s₁ ∧
      Grows avail root s₁ (s.vmmMap alloc root phys virt flags).2 ∧
      ∀ p, IsPath p → tableAt (s.vmmMap alloc root phys virt flags).2.mem root p = tableAt s₁.mem root p := by
  have hp : IsPath ([] ++ pathOf virt) := pathOf_isPath virt
  obtain ⟨hg, hres, -⟩ := walk_grows ha hok hp rfl
  rw [List.nil_append] at hres
  have hok' := (vmmMap_spec ha hok phys virt flags).1
  refine ⟨_, rfl, hg, ?_⟩
  unfold Vmm.vmmMap at hok' ⊢
  rw [getPte_eq_walk] at hok' ⊢
  rcases hw : s.walk alloc root (pathOf virt) with ⟨r, s₁⟩
  rw [hw] at hg hres hok'
  cases r with
  | none => exact ⟨(GrowsOnly.refl hg.ok).toGrows, fun _ _ => rfl⟩
  | some t =>
    have ht : tableAt s₁.mem root (pathOf virt) = some t := hres t rfl
    obtain ⟨-, htab, -, -⟩ := leaf_store hg.ok.tree ht
      ((phys &&& pteAddrMask) ||| (flags &&& ~~~pteAddrMask) ||| ptePresent)
    refine ⟨⟨hok', fun q u hq hu => .inl (htab q hq ▸ hu), fun _ hf => hf, fun u hu hout _ i hi => ?_⟩, htab⟩
    apply Function.update_of_ne
    intro he
    obtain ⟨rfl, -⟩ := entryAddr_inj hu (tableAt_dvd hg.ok.tree.aligned ht) hi (indexAt_lt 12 virt) he
    exact hout _ (pathOf_isPath virt) ht

theorem vmmMap_grows : Grows avail root s (s.vmmMap alloc root phys virt flags).2 := by
  obtain ⟨s₁, -, hg, hg', -⟩ := vmmMap_cases ha hok phys virt flags
  exact hg.toGrows.trans hg'

theorem vmmMap_tables (q : List Nat) (u : Nat) (hq : IsPath q)
    (hu : tableAt (s.vmmMap alloc root phys virt flags).2.mem root q = some u) :
    tableAt s.mem root q = some u ∨ avail s.phys u ∧ ∃ m, (m, u) ∈ s.touched alloc root (pathOf virt) := by
  obtain ⟨s₁, hs₁, -, -, hsame⟩ := vmmMap_cases ha hok phys virt flags
  have hp : IsPath ([] ++ pathOf virt) := pathOf_isPath virt
  rw [hsame q hq, hs₁] at hu
  exact walk_tables ha hok hp rfl q u hq hu

theorem vmmMap_low (hl : LowFirst alloc low) (hroom : Vmm.missing s.mem root (pathOf virt) ≤ low s.phys)
    (q : List Nat) (u : Nat) (hq : IsPath q)
    (hu : tableAt (s.vmmMap alloc root phys virt flags).2.mem root q = some u) :
    tableAt s.mem root q = some u ∨ u < identityEnd := by
  rcases vmmMap_tables ha hok phys virt flags q u hq hu with hold | ⟨hav, m, hm⟩
  · exact .inl hold
  · have hp : IsPath ([] ++ pathOf virt) := pathOf_isPath virt
    rcases walk_low ha hl hok hp rfl hroom _ hm with ⟨r, hr, hur⟩ | hlow
    · exact absurd hav (hok.apart r u hr hur)
    · exact .inr hlow

end vmmMap

end GeckoOS.Mem.Paging
