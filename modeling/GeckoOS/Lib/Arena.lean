import Mathlib.Tactic.Common
import Mathlib.Logic.Relation
import Mathlib.Data.List.Nodup
import Mathlib.Order.Interval.Set.Disjoint

/-! Trees whose nodes lie in an array and name their children by index. -/
namespace GeckoOS.Lib

inductive Tree (α : Type) where
  | node (label : α) (children : List (Tree α))

variable {α : Type}

def Tree.label : Tree α → α
  | .node a _ => a

/-- The trees at these indices, read out of the cells of the array. -/
inductive Holds (cell : Nat → Option (α × List Nat)) : List (Tree α) → List Nat → Prop
  | nil : Holds cell [] []
  | cons {n : Nat} {a : α} {kids roots : List Nat} {ts rest : List (Tree α)} (hn : cell n = some (a, kids))
      (hkids : Holds cell ts kids) (hrest : Holds cell rest roots) :
        Holds cell (.node a ts :: rest) (n :: roots)

/-- The trees fill the cells from `lo` to `hi`, one behind the other. The root of
each stands in front of its children or behind them. -/
inductive Laid (cell : Nat → Option (α × List Nat)) : Nat → List (Tree α) → List Nat → Nat → Prop
  | nil (i : Nat) : Laid cell i [] [] i
  | pre {lo m hi : Nat} {a : α} {kids roots : List Nat} {ts rest : List (Tree α)}
      (hn : cell lo = some (a, kids))
      (hkids : Laid cell (lo + 1) ts kids m) (hrest : Laid cell m rest roots hi) :
      Laid cell lo (.node a ts :: rest) (lo :: roots) hi
  | post {lo m hi : Nat} {a : α} {kids roots : List Nat} {ts rest : List (Tree α)}
      (hkids : Laid cell lo ts kids m) (hn : cell m = some (a, kids))
      (hrest : Laid cell (m + 1) rest roots hi) :
      Laid cell lo (.node a ts :: rest) (m :: roots) hi

/-- What each label has to do with those of its children. -/
inductive Every (P : α → List α → Prop) : List (Tree α) → Prop
  | nil : Every P []
  | cons {a : α} {ts rest : List (Tree α)} (ha : P a (ts.map Tree.label)) (hkids : Every P ts)
      (hrest : Every P rest) :
      Every P (.node a ts :: rest)

theorem Every.append {P : α → List α → Prop} {ts ts' : List (Tree α)} (h : Every P ts) (h' : Every P ts') :
    Every P (ts ++ ts') := by
  induction h with
  | nil => exact h'
  | cons ha hkids _ _ ih => exact .cons ha hkids ih

/-- The first tree and the others. -/
theorem Holds.uncons {cell : Nat → Option (α × List Nat)} {t : Tree α} {ts : List (Tree α)} {roots : List Nat}
    (h : Holds cell (t :: ts) roots) : ∃ i is, roots = i :: is ∧ Holds cell [t] [i] ∧ Holds cell ts is := by
  cases h with
  | cons hn hkids hrest => exact ⟨_, _, rfl, .cons hn hkids .nil, hrest⟩

theorem Holds.length_eq {cell : Nat → Option (α × List Nat)} {ts : List (Tree α)} {roots : List Nat}
    (h : Holds cell ts roots) :
    ts.length = roots.length := by
  induction h with
  | nil => rfl
  | cons _ _ _ _ ih => exact congrArg Nat.succ ih

theorem Holds.labels {cell : Nat → Option (α × List Nat)} {ts : List (Tree α)} {roots : List Nat}
    (h : Holds cell ts roots) :
    ∀ (k i : Nat), roots[k]? = some i → ∃ a, (ts.map Tree.label)[k]? = some a ∧
    ∃ kids, cell i = some (a, kids) := by
  induction h with
  | nil => simp
  | cons hn _ _ _ ih =>
    intro k i hi
    cases k with
    | zero =>
      cases hi
      exact ⟨_, rfl, _, hn⟩
    | succ k => exact ih k i hi

/-- `c` is a child of `i`. -/
def Child (cell : Nat → Option (α × List Nat)) (i c : Nat) : Prop :=
  ∃ a kids, cell i = some (a, kids) ∧ c ∈ kids

/-- The cells in `S` are the nodes of the trees with these roots. -/
structure IsForest (cell : Nat → Option (α × List Nat)) (S : Set Nat) (roots : List Nat) : Prop where
  roots_mem : ∀ r ∈ roots, r ∈ S
  inside : ∀ i ∈ S, ∀ c, Child cell i c → c ∈ S
  parent_unique : ∀ i ∈ S, ∀ j ∈ S, ∀ c, Child cell i c → Child cell j c → i = j
  distinct : ∀ i ∈ S, ∀ a kids, cell i = some (a, kids) → kids.Nodup
  orphans : ∀ r ∈ roots, ∀ i ∈ S, ¬ Child cell i r
  acyclic : ∀ i ∈ S, ¬ Relation.TransGen (Child cell) i i
  connected : ∀ i ∈ S, ∃ r ∈ roots, Relation.ReflTransGen (Child cell) r i

namespace IsForest
variable {cell : Nat → Option (α × List Nat)} {S T : Set Nat} {roots roots' kids : List Nat} {n : Nat} {a : α}

theorem empty (cell : Nat → Option (α × List Nat)) : IsForest cell ∅ [] where
  roots_mem := by simp
  inside := by simp
  parent_unique := by simp
  distinct := by simp
  orphans := by simp
  acyclic := by simp
  connected := by simp

theorem reach_mem (h : IsForest cell S roots) {i j : Nat} (hi : i ∈ S)
    (hr : Relation.ReflTransGen (Child cell) i j) :
    j ∈ S := by
  induction hr with
  | refl => exact hi
  | tail _ hc ih => exact h.inside _ ih _ hc

/-- A new root above all of the others. -/
theorem graft (h : IsForest cell S kids) (hn : n ∉ S) (hc : cell n = some (a, kids)) (hd : kids.Nodup) :
    IsForest cell (insert n S) [n] := by
  have hroot : ∀ c, Child cell n c → c ∈ kids := by
    rintro c ⟨b, ks, hk, hm⟩
    rw [hc] at hk
    cases hk
    exact hm
  have hself : ¬ Child cell n n := fun hch => hn (h.roots_mem n (hroot n hch))
  refine ⟨by simp, ?_, ?_, ?_, ?_, ?_, ?_⟩
  · rintro i (rfl | hi) c hch
    · exact .inr (h.roots_mem c (hroot c hch))
    · exact .inr (h.inside i hi c hch)
  · rintro i (rfl | hi) j (rfl | hj) c hic hjc
    · rfl
    · exact absurd hjc (h.orphans c (hroot c hic) j hj)
    · exact absurd hic (h.orphans c (hroot c hjc) i hi)
    · exact h.parent_unique i hi j hj c hic hjc
  · rintro i (rfl | hi) b ks hk
    · rw [hc] at hk
      cases hk
      exact hd
    · exact h.distinct i hi b ks hk
  · intro r hr i hi hch
    obtain rfl := List.mem_singleton.mp hr
    obtain rfl | hi := hi
    · exact hself hch
    · exact hn (h.inside i hi _ hch)
  · rintro i (rfl | hi) hcyc
    · obtain ⟨c, hic, hci⟩ := Relation.TransGen.head'_iff.mp hcyc
      exact hn (h.reach_mem (h.roots_mem c (hroot c hic)) hci)
    · exact h.acyclic i hi hcyc
  · rintro i (rfl | hi)
    · exact ⟨i, List.mem_singleton.mpr rfl, .refl⟩
    · obtain ⟨r, hr, hri⟩ := h.connected i hi
      exact ⟨n, List.mem_singleton.mpr rfl, .head ⟨a, kids, hc, hr⟩ hri⟩

/-- Two forests beside each other. -/
theorem union (h : IsForest cell S roots) (h' : IsForest cell T roots') (hd : ∀ i ∈ S, i ∉ T) :
    IsForest cell (S ∪ T) (roots ++ roots') := by
  have hne : ∀ i ∈ S, ∀ j ∈ T, ∀ c, Child cell i c → ¬ Child cell j c := fun i hi j hj c hic hjc =>
    hd _ (h.inside i hi c hic) (h'.inside j hj c hjc)
  refine ⟨?_, ?_, ?_, ?_, ?_, ?_, ?_⟩
  · intro r hr
    exact (List.mem_append.mp hr).imp (h.roots_mem r) (h'.roots_mem r)
  · rintro i (hi | hi) c hc
    · exact .inl (h.inside i hi c hc)
    · exact .inr (h'.inside i hi c hc)
  · rintro i (hi | hi) j (hj | hj) c hic hjc
    · exact h.parent_unique i hi j hj c hic hjc
    · exact absurd hjc (hne i hi j hj c hic)
    · exact absurd hic (hne j hj i hi c hjc)
    · exact h'.parent_unique i hi j hj c hic hjc
  · rintro i (hi | hi)
    · exact h.distinct i hi
    · exact h'.distinct i hi
  · intro r hr i hi hc
    obtain hr | hr := List.mem_append.mp hr
    · obtain hi | hi := hi
      · exact h.orphans r hr i hi hc
      · exact hd r (h.roots_mem r hr) (h'.inside i hi r hc)
    · obtain hi | hi := hi
      · exact hd r (h.inside i hi r hc) (h'.roots_mem r hr)
      · exact h'.orphans r hr i hi hc
  · rintro i (hi | hi)
    · exact h.acyclic i hi
    · exact h'.acyclic i hi
  · rintro i (hi | hi)
    · obtain ⟨r, hr, hri⟩ := h.connected i hi
      exact ⟨r, List.mem_append_left _ hr, hri⟩
    · obtain ⟨r, hr, hri⟩ := h'.connected i hi
      exact ⟨r, List.mem_append_right _ hr, hri⟩

end IsForest

namespace Laid
variable {cell cell' : Nat → Option (α × List Nat)} {lo m hi : Nat} {ts ts' : List (Tree α)}
  {roots roots' : List Nat}

theorem le (h : Laid cell lo ts roots hi) : lo ≤ hi := by
  induction h with
  | nil i => exact Nat.le_refl i
  | pre _ _ _ ihk ihr => omega
  | post _ _ _ ihk ihr => omega

theorem length_eq (h : Laid cell lo ts roots hi) : ts.length = roots.length := by
  induction h with
  | nil i => rfl
  | pre _ _ _ _ ihr => exact congrArg Nat.succ ihr
  | post _ _ _ _ ihr => exact congrArg Nat.succ ihr

theorem holds (h : Laid cell lo ts roots hi) : Holds cell ts roots := by
  induction h with
  | nil i => exact .nil
  | pre hn _ _ ihk ihr => exact .cons hn ihk ihr
  | post _ hn _ ihk ihr => exact .cons hn ihk ihr

/-- Every cell between the two ends belongs to one of the trees. -/
theorem every {P : α → List α → Prop} (h : Laid cell lo ts roots hi) (hP : Every P ts) {i : Nat}
    (hlo : lo ≤ i) (hhi : i < hi) :
    ∃ a kids labels, cell i = some (a, kids) ∧ P a labels ∧
      ∀ (k c : Nat), kids[k]? = some c → ∃ b, labels[k]? = some b ∧ ∃ kids', cell c = some (b, kids') := by
  induction h with
  | nil => omega
  | @pre lo m hi a kids roots ts rest hn hkids hrest ihk ihr =>
    obtain _ | ⟨ha, hts, hr⟩ := hP
    obtain rfl | hne := eq_or_ne i lo
    · exact ⟨a, kids, _, hn, ha, hkids.holds.labels⟩
    · by_cases hm : i < m
      · exact ihk hts (by omega) hm
      · exact ihr hr (by omega) hhi
  | @post lo m hi a kids roots ts rest hkids hn hrest ihk ihr =>
    obtain _ | ⟨ha, hts, hr⟩ := hP
    obtain rfl | hne := eq_or_ne i m
    · exact ⟨a, kids, _, hn, ha, hkids.holds.labels⟩
    · by_cases hm : i < m
      · exact ihk hts hlo hm
      · exact ihr hr (by omega) hhi

/-- Only the cells between the two ends matter. -/
theorem congr (h : Laid cell lo ts roots hi) (heq : ∀ i, lo ≤ i → i < hi → cell' i = cell i) :
    Laid cell' lo ts roots hi := by
  induction h with
  | nil i => exact .nil i
  | @pre lo m hi a kids roots ts rest hn hkids hrest ihk ihr =>
    have hm := hkids.le
    have hh := hrest.le
    refine .pre ?_ (ihk fun i h₁ h₂ => heq i (by omega) (by omega)) (ihr fun i h₁ h₂ => heq i (by omega) h₂)
    rw [heq lo (Nat.le_refl lo) (by omega), hn]
  | @post lo m hi a kids roots ts rest hkids hn hrest ihk ihr =>
    have hm := hkids.le
    have hh := hrest.le
    refine .post (ihk fun i h₁ h₂ => heq i h₁ (by omega)) ?_ (ihr fun i h₁ h₂ => heq i (by omega) h₂)
    rw [heq m hm (by omega), hn]

theorem append (h : Laid cell lo ts roots m) (h' : Laid cell m ts' roots' hi) :
    Laid cell lo (ts ++ ts') (roots ++ roots') hi := by
  induction h with
  | nil i => exact h'
  | pre hn hkids _ _ ihr => exact .pre hn hkids (ihr h')
  | post hkids hn _ _ ihr => exact .post hkids hn (ihr h')

theorem roots_mem (h : Laid cell lo ts roots hi) : ∀ r ∈ roots, lo ≤ r ∧ r < hi := by
  induction h with
  | nil i => simp
  | @pre lo m hi a kids roots ts rest hn hkids hrest ihk ihr =>
    have hm := hkids.le
    have hh := hrest.le
    intro r hr
    obtain rfl | hr := List.mem_cons.mp hr
    · omega
    · have := ihr r hr
      omega
  | @post lo m hi a kids roots ts rest hkids hn hrest ihk ihr =>
    have hm := hkids.le
    have hh := hrest.le
    intro r hr
    obtain rfl | hr := List.mem_cons.mp hr
    · omega
    · have := ihr r hr
      omega

theorem roots_nodup (h : Laid cell lo ts roots hi) : roots.Nodup := by
  induction h with
  | nil i => exact List.nodup_nil
  | @pre lo m hi a kids roots ts rest hn hkids hrest ihk ihr =>
    refine List.nodup_cons.mpr ⟨fun hr => ?_, ihr⟩
    have := hrest.roots_mem lo hr
    have := hkids.le
    omega
  | @post lo m hi a kids roots ts rest hkids hn hrest ihk ihr =>
    refine List.nodup_cons.mpr ⟨fun hr => ?_, ihr⟩
    have := hrest.roots_mem m hr
    omega

private theorem Ico_succ {lo m : Nat} (h : lo ≤ m) : Set.Ico lo (m + 1) = insert m (Set.Ico lo m) := by
  ext i
  simp only [Set.mem_Ico, Set.mem_insert_iff]
  omega

private theorem Ico_cons {lo m : Nat} (h : lo < m) : Set.Ico lo m = insert lo (Set.Ico (lo + 1) m) := by
  ext i
  simp only [Set.mem_Ico, Set.mem_insert_iff]
  omega

/-- The cells between the two ends are a forest. -/
theorem isForest (h : Laid cell lo ts roots hi) : IsForest cell (Set.Ico lo hi) roots := by
  have hsplit : ∀ {lo m hi : Nat}, lo ≤ m → m ≤ hi → Set.Ico lo m ∪ Set.Ico m hi = Set.Ico lo hi :=
    fun h₁ h₂ => Set.Ico_union_Ico_eq_Ico h₁ h₂
  induction h with
  | nil i => simpa only [Set.Ico_self] using IsForest.empty cell
  | @pre lo m hi a kids roots ts rest hn hkids hrest ihk ihr =>
    have hm := hkids.le
    have htree := ihk.graft (by simp) hn hkids.roots_nodup
    rw [← Ico_cons (by omega)] at htree
    rw [← hsplit (by omega : lo ≤ m) hrest.le]
    exact htree.union ihr fun i hi hi' => absurd hi.2 (Nat.not_lt_of_le hi'.1)
  | @post lo m hi a kids roots ts rest hkids hn hrest ihk ihr =>
    have hm := hkids.le
    have htree := ihk.graft (by simp) hn hkids.roots_nodup
    rw [← Ico_succ hm] at htree
    rw [← hsplit (by omega : lo ≤ m + 1) hrest.le]
    exact htree.union ihr fun i hi hi' => absurd hi.2 (Nat.not_lt_of_le hi'.1)

end Laid

end GeckoOS.Lib
