import GeckoOS.Mem.Paging
import Mathlib.Data.List.Infix
import Mathlib.Data.Nat.Bitwise
import Mathlib.Tactic.Common

/-! The page tables as a radix tree: tables are found by paths of indices, and
the tree is well formed when no two paths share a frame. -/
namespace GeckoOS.Mem.Paging

/-- The table behind entry `i` of table `t`, if the entry is present. -/
def child (m : Memory) (t i : Nat) : Option Nat :=
  if pteIsPresent (m (entryAddr t i)) then some (pteGetPhys (m (entryAddr t i))) else none

/-- The table reached from `root` through the indices `p`. -/
def tableAt (m : Memory) (root : Nat) (p : List Nat) : Option Nat :=
  p.foldl (fun t i => t.bind (child m · i)) (some root)

/-- A path to one of the tables: at most three indices, each below 512. -/
def IsPath (p : List Nat) : Prop := p.length ≤ 3 ∧ ∀ i ∈ p, i < 512

/-- Frames are aligned, no frame is shared by two paths, and no entry that
leads to a table is marked huge. -/
structure TreeOk (m : Memory) (root : Nat) : Prop where
  aligned : 4096 ∣ root
  distinct : ∀ p q t, IsPath p → IsPath q → tableAt m root p = some t → tableAt m root q = some t → p = q
  noHuge : ∀ p i t, IsPath (p ++ [i]) → tableAt m root p = some t →
    pteIsPresent (m (entryAddr t i)) = true → m (entryAddr t i) &&& pteHuge = 0#64

/-- The indices that lead to the leaf table of an address. -/
def pathOf (v : BitVec 64) : List Nat := [pml4Index v, pdptIndex v, pdIndex v]

/-- Bits 12..47 of an address. -/
def pageOf (v : BitVec 64) : Nat := v.toNat / 2^12 % 2^36

theorem indexAt_eq (shift : Nat) (v : BitVec 64) : indexAt shift v = v.toNat / 2^shift % 512 := by
  have h : (0x1FF#64).toNat = 2^9 - 1 := rfl
  rw [indexAt, BitVec.toNat_and, h, Nat.and_two_pow_sub_one_eq_mod, BitVec.toNat_ushiftRight,
    Nat.shiftRight_eq_div_pow]

theorem indexAt_lt (shift : Nat) (v : BitVec 64) : indexAt shift v < 512 := by
  rw [indexAt_eq]; exact Nat.mod_lt _ (by decide)

theorem pathOf_isPath (v : BitVec 64) : IsPath (pathOf v) := by
  refine ⟨by simp [pathOf], ?_⟩
  simp [pathOf, pml4Index, pdptIndex, pdIndex, indexAt_lt]

theorem pageOf_eq_iff (v w : BitVec 64) :
    pageOf v = pageOf w ↔ pathOf v = pathOf w ∧ ptIndex v = ptIndex w := by
  simp only [pageOf, pathOf, pml4Index, pdptIndex, pdIndex, ptIndex, indexAt_eq, List.cons.injEq, and_true]
  omega

@[simp] theorem tableAt_nil (m : Memory) (root : Nat) : tableAt m root [] = some root := rfl

@[simp] theorem tableAt_snoc (m : Memory) (root : Nat) (p : List Nat) (i : Nat) :
    tableAt m root (p ++ [i]) = (tableAt m root p).bind (child m · i) := by
  simp [tableAt]

theorem tableAt_none_append {m : Memory} {root : Nat} {p : List Nat} (h : tableAt m root p = none)
    (q : List Nat) : tableAt m root (p ++ q) = none := by
  induction q using List.reverseRecOn with
  | nil => simpa using h
  | append_singleton q i ih => rw [← List.append_assoc, tableAt_snoc, ih]; rfl

/-- A mask that clears the offset in the page, and the bits above `n` page number bits. -/
theorem and_page_mask (x n : Nat) : x &&& ((2^n - 1) <<< 12) = x / 2^12 % 2^n * 2^12 := by
  apply Nat.eq_of_testBit_eq
  intro i
  rw [Nat.testBit_and, Nat.testBit_shiftLeft, Nat.testBit_two_pow_sub_one, ← Nat.shiftLeft_eq,
    Nat.testBit_shiftLeft, Nat.testBit_mod_two_pow, Nat.testBit_div_two_pow]
  by_cases h : 12 ≤ i
  · simp only [ge_iff_le, h, decide_true, Bool.true_and, Nat.sub_add_cancel]
    rw [Bool.and_comm]
  · simp [h]

theorem pteGetPhys_eq (e : BitVec 64) : pteGetPhys e = e.toNat / 2^12 % 2^40 * 2^12 := by
  have h : pteAddrMask.toNat = (2^40 - 1) <<< 12 := by decide
  rw [pteGetPhys, BitVec.toNat_and, h, and_page_mask]

theorem pteIsPresent_eq (e : BitVec 64) : pteIsPresent e = (e.toNat % 2 == 1) := by
  unfold pteIsPresent ptePresent
  rw [Bool.eq_iff_iff, bne_iff_ne, ne_eq, BitVec.toNat_eq, BitVec.toNat_and]
  simp

theorem pteGetPhys_dvd (e : BitVec 64) : 4096 ∣ pteGetPhys e :=
  ⟨e.toNat / 2^12 % 2^40, by rw [pteGetPhys_eq]; omega⟩

theorem child_dvd {m : Memory} {t i u : Nat} (h : child m t i = some u) : 4096 ∣ u := by
  unfold child at h
  split at h
  · exact Option.some.inj h ▸ pteGetPhys_dvd _
  · cases h

theorem tableAt_dvd {m : Memory} {root t : Nat} {p : List Nat} (hr : 4096 ∣ root)
    (h : tableAt m root p = some t) : 4096 ∣ t := by
  induction p using List.reverseRecOn with
  | nil => exact Option.some.inj h ▸ hr
  | append_singleton p i ih =>
    rw [tableAt_snoc, Option.bind_eq_some_iff] at h
    obtain ⟨u, _, hc⟩ := h
    exact child_dvd hc

theorem isPath_of_prefix {p q : List Nat} (h : IsPath (p ++ q)) : IsPath p :=
  ⟨by have := h.1; simp at this; omega, fun j hj => h.2 j (by simp [hj])⟩

theorem isPath_of_append {p : List Nat} {i : Nat} (h : IsPath (p ++ [i])) : IsPath p := isPath_of_prefix h

theorem entryAddr_inj {t u i j : Nat} (ht : 4096 ∣ t) (hu : 4096 ∣ u) (hi : i < 512) (hj : j < 512)
    (h : entryAddr t i = entryAddr u j) : t = u ∧ i = j := by
  unfold entryAddr at h
  omega

/-- What `vmm_get_phys` returns, read off the tree. -/
def translate (m : Memory) (root : Nat) (v : BitVec 64) : Nat :=
  match tableAt m root (pathOf v) with
  | none => 0
  | some t => if pteIsPresent (m (entryAddr t (ptIndex v))) then pteGetPhys (m (entryAddr t (ptIndex v))) else 0

/-- The frame that the page of an address is mapped to, if its entry is present. -/
def lookup (m : Memory) (root : Nat) (v : BitVec 64) : Option Nat :=
  (tableAt m root (pathOf v)).bind (child m · (ptIndex v))

theorem translate_eq_lookup (m : Memory) (root : Nat) (v : BitVec 64) :
    translate m root v = (lookup m root v).getD 0 := by
  unfold translate lookup
  cases tableAt m root (pathOf v) with
  | none => rfl
  | some t =>
    simp only [Option.bind_some, child]
    split <;> rfl

theorem translate_of_lookup {m m' : Memory} {root : Nat} {v : BitVec 64}
    (h : lookup m' root v = lookup m root v) :
    translate m' root v = translate m root v := by
  rw [translate_eq_lookup, translate_eq_lookup, h]

section congr
variable {m m' : Memory} {root : Nat}
  (h : ∀ p t, IsPath p → tableAt m root p = some t → ∀ i < 512, m' (entryAddr t i) = m (entryAddr t i))
include h

/-- Memory that is the same in every table leads to the same tables. -/
theorem tableAt_congr (p : List Nat) (hp : IsPath p) : tableAt m' root p = tableAt m root p := by
  induction p using List.reverseRecOn with
  | nil => rfl
  | append_singleton p i ih =>
    have hpre := isPath_of_append hp
    rw [tableAt_snoc, tableAt_snoc, ih hpre]
    cases ht : tableAt m root p with
    | none => rfl
    | some t =>
      rw [Option.bind_some, Option.bind_some, child, child, h p t hpre ht i (hp.2 i (by simp))]

theorem TreeOk.congr (hok : TreeOk m root) : TreeOk m' root := by
  refine ⟨hok.aligned, fun p q t hp hq ht ht' => ?_, fun p i t hp ht hpres => ?_⟩
  · rw [tableAt_congr h p hp] at ht
    rw [tableAt_congr h q hq] at ht'
    exact hok.distinct p q t hp hq ht ht'
  · have hpre := isPath_of_append hp
    rw [tableAt_congr h p hpre] at ht
    rw [h p t hpre ht i (hp.2 i (by simp))] at hpres ⊢
    exact hok.noHuge p i t hp ht hpres

theorem translate_mem_congr (v : BitVec 64) : translate m' root v = translate m root v := by
  rw [translate, translate, tableAt_congr h _ (pathOf_isPath v)]
  cases ht : tableAt m root (pathOf v) with
  | none => rfl
  | some t =>
    dsimp only
    rw [h _ t (pathOf_isPath v) ht (ptIndex v) (indexAt_lt 12 v)]

end congr

/-- A write to the leaf entry of `v`: the tree is the same, and so is every other page. -/
theorem leaf_store {m : Memory} {root t : Nat} (hok : TreeOk m root) {v : BitVec 64}
    (ht : tableAt m root (pathOf v) = some t) (e : BitVec 64) :
    let m' := Function.update m (entryAddr t (ptIndex v)) e
    TreeOk m' root ∧ (∀ p, IsPath p → tableAt m' root p = tableAt m root p) ∧
      lookup m' root v = (if pteIsPresent e then some (pteGetPhys e) else none) ∧
      ∀ w, pageOf w ≠ pageOf v → lookup m' root w = lookup m root w := by
  intro m'
  have hchild : ∀ p u i, IsPath (p ++ [i]) → tableAt m root p = some u →
      m' (entryAddr u i) = m (entryAddr u i) := by
    intro p u i hp hu
    refine Function.update_of_ne (fun he => ?_) _ _
    obtain ⟨rfl, _⟩ := entryAddr_inj (tableAt_dvd hok.aligned hu) (tableAt_dvd hok.aligned ht)
      (hp.2 i (by simp)) (indexAt_lt 12 v) he
    have hlen := congrArg List.length (hok.distinct _ _ _ (isPath_of_append hp) (pathOf_isPath v) hu ht)
    have := hp.1
    simp [pathOf] at hlen this
    omega
  have htab : ∀ p, IsPath p → tableAt m' root p = tableAt m root p := by
    intro p hp
    induction p using List.reverseRecOn with
    | nil => rfl
    | append_singleton p i ih =>
      rw [tableAt_snoc, tableAt_snoc, ih (isPath_of_append hp)]
      cases hu : tableAt m root p with
      | none => rfl
      | some u => simp only [Option.bind_some, child, hchild p u i hp hu]
  refine ⟨⟨hok.aligned, ?_, ?_⟩, htab, ?_, ?_⟩
  · intro p q u hp hq hu hu'
    exact hok.distinct p q u hp hq (htab p hp ▸ hu) (htab q hq ▸ hu')
  · intro p i u hp hu
    rw [htab p (isPath_of_append hp)] at hu
    rw [hchild p u i hp hu]
    exact hok.noHuge p i u hp hu
  · rw [lookup, htab _ (pathOf_isPath v), ht]
    simp [m', child]
  · intro w hne
    rw [lookup, lookup, htab _ (pathOf_isPath w)]
    cases hu : tableAt m root (pathOf w) with
    | none => rfl
    | some u =>
      have hsame : m' (entryAddr u (ptIndex w)) = m (entryAddr u (ptIndex w)) := by
        refine Function.update_of_ne (fun he => ?_) _ _
        obtain ⟨rfl, hi⟩ := entryAddr_inj (tableAt_dvd hok.aligned hu) (tableAt_dvd hok.aligned ht)
          (indexAt_lt 12 w) (indexAt_lt 12 v) he
        exact hne ((pageOf_eq_iff w v).mpr
          ⟨hok.distinct _ _ _ (pathOf_isPath w) (pathOf_isPath v) hu ht, hi⟩)
      simp only [Option.bind_some, child, hsame]

/-- The entry stored for a new table at frame `f`. -/
def tableEntry (f : Nat) : BitVec 64 := BitVec.ofNat 64 f ||| ptePresent ||| pteWritable

theorem tableEntry_toNat {f : Nat} (hf : 4096 ∣ f) (hlt : f < 2^52) : (tableEntry f).toNat = f + 3 := by
  obtain ⟨k, rfl⟩ := hf
  have h3 : ptePresent ||| pteWritable = 3#64 := by decide
  have hor := Nat.two_pow_add_eq_or_of_lt (i := 12) (b := 3) (by decide) k
  rw [tableEntry, BitVec.or_assoc, h3, BitVec.toNat_or, BitVec.toNat_ofNat, Nat.mod_eq_of_lt (by omega)]
  exact hor.symm

theorem tableEntry_phys {f : Nat} (hf : 4096 ∣ f) (hlt : f < 2^52) : pteGetPhys (tableEntry f) = f := by
  rw [pteGetPhys_eq, tableEntry_toNat hf hlt]
  omega

theorem tableEntry_present {f : Nat} (hf : 4096 ∣ f) (hlt : f < 2^52) :
    pteIsPresent (tableEntry f) = true := by
  rw [pteIsPresent_eq, tableEntry_toNat hf hlt, beq_iff_eq]
  omega

theorem tableEntry_notHuge {f : Nat} (hf : 4096 ∣ f) (hlt : f < 2^52) : tableEntry f &&& pteHuge = 0#64 := by
  apply BitVec.eq_of_toNat_eq
  have h7 : pteHuge.toNat = 2^7 := by decide
  rw [BitVec.toNat_and, tableEntry_toNat hf hlt, h7, Nat.and_two_pow, Nat.testBit_eq_decide_div_mod_eq]
  have : (f + 3) / 2^7 % 2 = 0 := by omega
  simp only [this, zero_ne_one, decide_false, Bool.toNat_false, Nat.zero_mul]
  rfl

section Insert
variable {m : Memory} {root t f i : Nat} {p : List Nat}

/-- Memory after a fresh table `f` was cleared and entered at index `i` of `t`. -/
def enterTable (m : Memory) (t i f : Nat) : Memory :=
  Function.update (Vmm.clearTable m f) (entryAddr t i) (tableEntry f)

private theorem enter_self : enterTable m t i f (entryAddr t i) = tableEntry f := Function.update_self _ _ _

theorem enter_fresh (ht : 4096 ∣ t) (hf : 4096 ∣ f) (hne : t ≠ f) (hi : i < 512) {j : Nat} (hj : j < 512) :
    enterTable m t i f (entryAddr f j) = 0#64 := by
  rw [enterTable, Function.update_of_ne (fun he => hne (entryAddr_inj hf ht hj hi he).1.symm)]
  exact if_pos (by unfold entryAddr; omega)

theorem enter_other {u j : Nat} (hu : 4096 ∣ u) (ht : 4096 ∣ t) (hf : 4096 ∣ f) (huf : u ≠ f)
    (hi : i < 512) (hj : j < 512) (hne : ¬ (u = t ∧ j = i)) :
    enterTable m t i f (entryAddr u j) = m (entryAddr u j) := by
  rw [enterTable, Function.update_of_ne (fun he => hne (entryAddr_inj hu ht hj hi he))]
  exact if_neg (by unfold entryAddr; omega)

/-- A page that the tree does not use becomes a table at the end of a path. -/
private structure Enters (m : Memory) (root : Nat) (p : List Nat) (t i f : Nat) : Prop where
  tree : TreeOk m root
  path : IsPath (p ++ [i])
  table : tableAt m root p = some t
  aligned : 4096 ∣ f
  lt : f < 2^52
  fresh : ∀ q, IsPath q → tableAt m root q ≠ some f

namespace Enters

private theorem index_lt (h : Enters m root p t i f) : i < 512 := h.path.2 i (by simp)

private theorem empty (h : Enters m root p t i f) {j : Nat} (hj : j < 512) :
    enterTable m t i f (entryAddr f j) = 0#64 := by
  have htf : t ≠ f := fun he => h.fresh p (isPath_of_append h.path) (he ▸ h.table)
  exact enter_fresh (tableAt_dvd h.tree.aligned h.table) h.aligned htf h.index_lt hj

/-- The other entries of the tables are as they were. -/
private theorem other (h : Enters m root p t i f) {q : List Nat} {u j : Nat} (hq : IsPath q)
    (hu : tableAt m root q = some u)
    (hj : j < 512) (hne : ¬ (u = t ∧ j = i)) : enterTable m t i f (entryAddr u j) = m (entryAddr u j) := by
  have huf : u ≠ f := fun he => h.fresh q hq (he ▸ hu)
  exact enter_other (tableAt_dvd h.tree.aligned hu) (tableAt_dvd h.tree.aligned h.table) h.aligned huf
    h.index_lt hj hne

/-- The new table appears at its own path, nothing is below it, and every other
path leads where it did. -/
private theorem tableAt_eq (h : Enters m root p t i f) (q : List Nat) (hq : IsPath q) :
    tableAt (enterTable m t i f) root q =
      if p ++ [i] <+: q then (if q = p ++ [i] then some f else none) else tableAt m root q := by
  induction q using List.reverseRecOn with
  | nil => rw [if_neg (by simp)]; rfl
  | append_singleton q j ih =>
    have hj : j < 512 := hq.2 j (by simp)
    have huq := isPath_of_append hq
    have hpre : p ++ [i] <+: q ++ [j] ↔ p ++ [i] = q ++ [j] ∨ p ++ [i] <+: q := List.prefix_concat_iff
    rw [tableAt_snoc, ih huq]
    by_cases hin : p ++ [i] <+: q
    · have hne : q ++ [j] ≠ p ++ [i] := fun he => by
        have := hin.length_le
        have := congrArg List.length he
        simp at *
        omega
      rw [if_pos hin, if_pos (hpre.mpr (.inr hin)), if_neg hne]
      split
      · rw [Option.bind_some, child, h.empty hj]
        rfl
      · rfl
    · rw [if_neg hin]
      by_cases he : q ++ [j] = p ++ [i]
      · obtain ⟨rfl, hji⟩ := List.append_inj' he rfl
        obtain rfl := List.singleton_inj.mp hji
        rw [if_pos (List.prefix_refl _), if_pos rfl, h.table, Option.bind_some, child, enter_self,
          if_pos (tableEntry_present h.aligned h.lt), tableEntry_phys h.aligned h.lt]
      · rw [if_neg (fun h => (hpre.mp h).elim (fun h' => he h'.symm) hin), tableAt_snoc]
        cases hu : tableAt m root q with
        | none => rfl
        | some u =>
          have hne : ¬ (u = t ∧ j = i) := by
            rintro ⟨rfl, rfl⟩
            exact he (by rw [h.tree.distinct q p u huq (isPath_of_append h.path) hu h.table])
          rw [Option.bind_some, Option.bind_some, child, child, h.other huq hu hj hne]

/-- A table is the new one or an old one at its old path. -/
private theorem tableAt_some (h : Enters m root p t i f) {q : List Nat} {u : Nat} (hq : IsPath q)
    (hu : tableAt (enterTable m t i f) root q = some u) : (q = p ++ [i] ∧ u = f) ∨
    tableAt m root q = some u := by
  rw [h.tableAt_eq q hq] at hu
  split at hu
  · split at hu
    · next he => exact .inl ⟨he, (Option.some.inj hu).symm⟩
    · cases hu
  · exact .inr hu

private theorem treeOk (h : Enters m root p t i f) : TreeOk (enterTable m t i f) root := by
  refine ⟨h.tree.aligned, ?_, ?_⟩
  · intro q r u hq hr hu hu'
    rcases h.tableAt_some hq hu with ⟨rfl, rfl⟩ | hold <;> rcases h.tableAt_some hr hu' with ⟨rfl, hnew⟩ | hold'
    · rfl
    · exact absurd hold' (h.fresh r hr)
    · exact absurd (hnew ▸ hold) (h.fresh q hq)
    · exact h.tree.distinct q r u hq hr hold hold'
  · intro q j u hq hu hpres
    have hj : j < 512 := hq.2 j (by simp)
    have huq := isPath_of_append hq
    rcases h.tableAt_some huq hu with ⟨rfl, rfl⟩ | hold
    · rw [h.empty hj] at hpres
      cases hpres
    · by_cases he : u = t ∧ j = i
      · obtain ⟨rfl, rfl⟩ := he
        rw [enter_self]
        exact tableEntry_notHuge h.aligned h.lt
      · rw [h.other huq hold hj he] at hpres ⊢
        exact h.tree.noHuge q j u hq hold hpres

/-- The pages below the new table were not there before, and the others do not see it. -/
private theorem lookup_eq (h : Enters m root p t i f) (habs : pteIsPresent (m (entryAddr t i)) = false)
    (v : BitVec 64) :
    lookup (enterTable m t i f) root v = lookup m root v := by
  have hnone : tableAt m root (p ++ [i]) = none := by
    rw [tableAt_snoc, h.table, Option.bind_some, child, habs]; rfl
  have hv : ptIndex v < 512 := indexAt_lt 12 v
  rw [lookup, lookup, h.tableAt_eq _ (pathOf_isPath v)]
  by_cases hpre : p ++ [i] <+: pathOf v
  · have hold : tableAt m root (pathOf v) = none := by
      obtain ⟨r, hr⟩ := hpre
      rw [← hr, tableAt_none_append hnone r]
    rw [if_pos hpre, hold]
    by_cases he : pathOf v = p ++ [i]
    · rw [if_pos he]
      simp only [Option.bind_some, child, h.empty hv]
      rfl
    · rw [if_neg he, Option.bind_none, Option.bind_none]
  · rw [if_neg hpre]
    cases hu : tableAt m root (pathOf v) with
    | none => rfl
    | some u =>
      have hne : ¬ (u = t ∧ ptIndex v = i) := by
        rintro ⟨rfl, _⟩
        have hlen := congrArg List.length
          (h.tree.distinct _ _ _ (pathOf_isPath v) (isPath_of_append h.path) hu h.table)
        have := h.path.1
        simp [pathOf] at hlen this
        omega
      simp only [Option.bind_some, child, h.other (pathOf_isPath v) hu hv hne]

end Enters

/-- Entering a fresh table keeps the tree well formed and every page as it was. -/
theorem enterTable_ok (hok : TreeOk m root) (hp : IsPath (p ++ [i])) (ht : tableAt m root p = some t)
    (habs : pteIsPresent (m (entryAddr t i)) = false)
    (hf : 4096 ∣ f) (hlt : f < 2^52) (hfresh : ∀ q, IsPath q → tableAt m root q ≠ some f) :
    TreeOk (enterTable m t i f) root ∧
      (∀ q u, IsPath q → tableAt (enterTable m t i f) root q = some u → u = f ∨ tableAt m root q = some u) ∧
      tableAt (enterTable m t i f) root (p ++ [i]) = some f ∧
      ∀ v, lookup (enterTable m t i f) root v = lookup m root v := by
  have h : Enters m root p t i f := ⟨hok, hp, ht, hf, hlt, hfresh⟩
  refine ⟨h.treeOk, fun q u hq hu => (h.tableAt_some hq hu).imp_left And.right, ?_, h.lookup_eq habs⟩
  rw [h.tableAt_eq _ hp, if_pos (List.prefix_refl _), if_pos rfl]

end Insert
end GeckoOS.Mem.Paging
