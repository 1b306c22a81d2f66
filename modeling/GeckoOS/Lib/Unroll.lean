import GeckoOS.Lib.Runs
import Mathlib.Data.Fintype.Card
import Mathlib.Data.List.Nodup
import Mathlib.Tactic.Common

/-! The unrolling of a graph with labelled edges from a node: every walk with the node
at its end, in pre-order. There is one exactly if no walk meets a cycle. -/
namespace GeckoOS.Lib
variable {α β γ : Type}

/-- The results for all elements one after the other, if every element has one. -/
def gather (f : α → Option (List β)) : List α → Option (List β)
  | [] => some []
  | a :: as => do
    let l ← f a
    let ls ← gather f as
    return l ++ ls

section Gather
variable {f g : α → Option (List β)} {as : List α} {l : List β}

theorem gather_cons_eq_some {a : α} :
    gather f (a :: as) = some l ↔ ∃ k ks, f a = some k ∧ gather f as = some ks ∧ l = k ++ ks := by
  constructor
  · intro h
    obtain ⟨k, hk, h⟩ := Option.bind_eq_some_iff.mp h
    obtain ⟨ks, hks, h⟩ := Option.bind_eq_some_iff.mp h
    exact ⟨k, ks, hk, hks, (Option.some.inj h).symm⟩
  · rintro ⟨k, ks, hk, hks, rfl⟩
    simp only [gather, hk, hks]
    rfl

theorem exists_gather (h : ∀ a ∈ as, ∃ k, f a = some k) : ∃ l, gather f as = some l := by
  induction as with
  | nil => exact ⟨[], rfl⟩
  | cons a as ih =>
    obtain ⟨k, hk⟩ := h a (List.mem_cons_self ..)
    obtain ⟨ks, hks⟩ := ih fun b hb => h b (List.mem_cons_of_mem _ hb)
    exact ⟨k ++ ks, gather_cons_eq_some.mpr ⟨k, ks, hk, hks, rfl⟩⟩

theorem gather_mono (h : gather f as = some l) (hfg : ∀ a ∈ as, ∀ k, f a = some k → g a = some k) :
    gather g as = some l := by
  induction as generalizing l with
  | nil => exact h
  | cons a as ih =>
    obtain ⟨k, ks, hk, hks, rfl⟩ := gather_cons_eq_some.mp h
    exact gather_cons_eq_some.mpr ⟨k, ks, hfg a (List.mem_cons_self ..) k hk,
      ih hks fun b hb => hfg b (List.mem_cons_of_mem _ hb), rfl⟩

theorem gather_eq (h : gather f as = some l) {a : α} (ha : a ∈ as) : ∃ k, f a = some k := by
  induction as generalizing l with
  | nil => cases ha
  | cons b as ih =>
    obtain ⟨k, ks, hk, hks, rfl⟩ := gather_cons_eq_some.mp h
    cases ha with
    | head => exact ⟨k, hk⟩
    | tail _ ha => exact ih hks ha

theorem mem_gather (h : gather f as = some l) {b : β} : b ∈ l ↔ ∃ a ∈ as, ∃ k, f a = some k ∧ b ∈ k := by
  induction as generalizing l with
  | nil =>
    cases h
    simp
  | cons a as ih =>
    obtain ⟨k, ks, hk, hks, rfl⟩ := gather_cons_eq_some.mp h
    simp [ih hks, hk]

/-- The results of a map that takes every element's list to a list. -/
theorem gather_flatMap (r : β → List γ) (as : List α) :
    gather (fun a => (f a).map (List.flatMap r)) as = (gather f as).map (List.flatMap r) := by
  induction as with
  | nil => rfl
  | cons a as ih =>
    simp only [gather, ih]
    cases f a with
    | none => rfl
    | some k =>
      cases gather f as with
      | none => rfl
      | some ks => exact congrArg some (List.flatMap_append).symm

end Gather

variable {ν ε : Type} {steps : ν → List (ε × ν)} {v w : ν} {n : Nat} {l : List (List ε × ν)}

/-- The edges as a step relation. -/
def Edge (steps : ν → List (ε × ν)) (v : ν) (e : ε) (w : ν) : Prop := (e, w) ∈ steps v

/-- The walks from a node with their ends, if none of them is `n` edges long. -/
def unroll (steps : ν → List (ε × ν)) : Nat → ν → Option (List (List ε × ν))
  | 0, _ => none
  | n + 1, v =>
    (gather (fun s => (unroll steps n s.2).map (List.map (Prod.map (s.1 :: ·) id))) (steps v)).map
      (([], v) :: ·)

theorem unroll_succ_eq_some : unroll steps (n + 1) v = some l ↔
    ∃ k, gather (fun s => (unroll steps n s.2).map (List.map (Prod.map (s.1 :: ·) id))) (steps v) = some k ∧
      ([], v) :: k = l :=
  Option.map_eq_some_iff

theorem unroll_succ (h : unroll steps n v = some l) : unroll steps (n + 1) v = some l := by
  induction n generalizing v l with
  | zero => cases h
  | succ n ih =>
    obtain ⟨k, hk, rfl⟩ := unroll_succ_eq_some.mp h
    refine unroll_succ_eq_some.mpr ⟨k, gather_mono hk ?_, rfl⟩
    intro s _ k' hk'
    obtain ⟨k'', hs, rfl⟩ := Option.map_eq_some_iff.mp hk'
    exact Option.map_eq_some_iff.mpr ⟨k'', ih hs, rfl⟩

theorem unroll_mono (h : unroll steps n v = some l) {n' : Nat} (hn : n ≤ n') : unroll steps n' v = some l := by
  induction hn with
  | refl => exact h
  | step _ ih => exact unroll_succ ih

/-- The unrolling lists exactly the walks. -/
theorem mem_unroll (h : unroll steps n v = some l) {p : List ε} : (p, w) ∈ l ↔ Run (Edge steps) v p w := by
  induction n generalizing v l p with
  | zero => cases h
  | succ n ih =>
    obtain ⟨k, hk, rfl⟩ := unroll_succ_eq_some.mp h
    constructor
    · rintro (_ | ⟨_, hmem⟩)
      · exact .nil _
      · obtain ⟨⟨e, u⟩, he, k', hk', hmem⟩ := (mem_gather hk).mp hmem
        obtain ⟨k'', hu, rfl⟩ := Option.map_eq_some_iff.mp hk'
        obtain ⟨⟨q, w'⟩, hq, heq⟩ := List.mem_map.mp hmem
        cases heq
        exact .cons he ((ih hu).mp hq)
    · intro hrun
      cases hrun with
      | nil => exact List.mem_cons_self ..
      | @cons _ u _ e q he hq =>
        obtain ⟨k', hk'⟩ := gather_eq hk he
        obtain ⟨k'', hu, rfl⟩ := Option.map_eq_some_iff.mp hk'
        refine List.mem_cons_of_mem _ ((mem_gather hk).mpr ⟨(e, u), he, _, hk', ?_⟩)
        exact List.mem_map.mpr ⟨(q, w), (ih hu).mpr hq, rfl⟩

/-- The walks along some of the edges: no two are equal, and each begins with its edge. -/
private theorem nodup_gather_steps {ss : List (ε × ν)} {k : List (List ε × ν)} (hd : (ss.map Prod.fst).Nodup)
    (ih : ∀ {v l}, unroll steps n v = some l → (l.map Prod.fst).Nodup)
    (hk : gather (fun s => (unroll steps n s.2).map (List.map (Prod.map (s.1 :: ·) id))) ss = some k) :
    (k.map Prod.fst).Nodup ∧ ∀ p ∈ k.map Prod.fst, ∃ e ∈ ss.map Prod.fst, ∃ q, p = e :: q := by
  induction ss generalizing k with
  | nil =>
    cases hk
    simp
  | cons s ss ihs =>
    obtain ⟨k₁, k₂, hk₁, hk₂, rfl⟩ := gather_cons_eq_some.mp hk
    obtain ⟨k', hk', rfl⟩ := Option.map_eq_some_iff.mp hk₁
    have hd' := List.nodup_cons.mp hd
    obtain ⟨hnodup, hheads⟩ := ihs hd'.2 hk₂
    have hfst : (k'.map (Prod.map (s.1 :: ·) id)).map Prod.fst = (k'.map Prod.fst).map (s.1 :: ·) := by
      simp
    rw [List.map_append, hfst]
    constructor
    · refine List.nodup_append'.mpr ⟨(ih hk').map (fun _ _ heq => (List.cons.inj heq).2), hnodup, ?_⟩
      intro p hp hp'
      obtain ⟨q, _, rfl⟩ := List.mem_map.mp hp
      obtain ⟨e, he, q', heq⟩ := hheads _ hp'
      cases heq
      exact hd'.1 he
    · intro p hp
      cases List.mem_append.mp hp with
      | inl hp =>
        obtain ⟨q, _, rfl⟩ := List.mem_map.mp hp
        exact ⟨s.1, List.mem_cons_self .., q, rfl⟩
      | inr hp =>
        obtain ⟨e, he, hq⟩ := hheads p hp
        exact ⟨e, List.mem_cons_of_mem _ he, hq⟩

/-- No walk is listed twice where the edges of a node have different labels. -/
theorem nodup_unroll (hsteps : ∀ v, ((steps v).map Prod.fst).Nodup) (h : unroll steps n v = some l) :
    (l.map Prod.fst).Nodup := by
  induction n generalizing v l with
  | zero => cases h
  | succ n ih =>
    obtain ⟨k, hk, rfl⟩ := unroll_succ_eq_some.mp h
    obtain ⟨hnodup, hheads⟩ := nodup_gather_steps (hsteps v) ih hk
    refine List.nodup_cons.mpr ⟨fun hnil => ?_, hnodup⟩
    obtain ⟨_, _, _, heq⟩ := hheads _ hnil
    cases heq

private theorem count_snd_eq_one [BEq β] [LawfulBEq β] {l : List (α × β)}
    (hd : (l.map Prod.fst).Nodup) {b : β} :
    (l.map Prod.snd).count b = 1 ↔ ∃! a, (a, b) ∈ l := by
  induction l with
  | nil => simp [ExistsUnique]
  | cons s l ih =>
    obtain ⟨a, b'⟩ := s
    obtain ⟨ha, hd⟩ := List.nodup_cons.mp hd
    have hnotMem : ∀ b, (a, b) ∉ l := fun b hb => ha (List.mem_map.mpr ⟨_, hb, rfl⟩)
    by_cases hb : b' = b
    · subst hb
      have hcount : ((⟨a, b'⟩ :: l).map Prod.snd).count b' = (l.map Prod.snd).count b' + 1 := by simp
      rw [hcount]
      constructor
      · intro h
        have hzero : b' ∉ l.map Prod.snd := List.count_eq_zero.mp (Nat.succ.inj h)
        refine ⟨a, List.mem_cons_self .., fun a' ha' => ?_⟩
        cases ha' with
        | head => rfl
        | tail _ ha' => exact absurd (List.mem_map.mpr ⟨_, ha', rfl⟩) hzero
      · rintro ⟨_, _, hunique⟩
        have hnone : b' ∉ l.map Prod.snd := by
          intro hmem
          obtain ⟨⟨a', _⟩, ha', rfl⟩ := List.mem_map.mp hmem
          have heq := (hunique a' (List.mem_cons_of_mem _ ha')).trans (hunique a (List.mem_cons_self ..)).symm
          exact hnotMem _ (heq ▸ ha')
        rw [List.count_eq_zero.mpr hnone]
    · have hcount : ((⟨a, b'⟩ :: l).map Prod.snd).count b = (l.map Prod.snd).count b := by simp [hb]
      have hmem : ∀ a', (a', b) ∈ (a, b') :: l ↔ (a', b) ∈ l := by simp [Ne.symm hb]
      rw [hcount, ih hd]
      simp only [hmem]

/-- A node occurs exactly once if and only if exactly one walk leads to it. -/
theorem count_unroll_eq_one [BEq ν] [LawfulBEq ν] (hsteps : ∀ v, ((steps v).map Prod.fst).Nodup)
    (h : unroll steps n v = some l) : (l.map Prod.snd).count w = 1 ↔ ∃! p, Run (Edge steps) v p w := by
  rw [count_snd_eq_one (nodup_unroll hsteps h)]
  simp only [mem_unroll h]

/-- Every occurrence of a node brings its own items. -/
theorem count_items [BEq ν] [LawfulBEq ν] [BEq α] [LawfulBEq α] (items : ν → List α)
    (l : List (List ε × ν)) (x : α) :
    (l.flatMap fun s => (items s.2).map (s.2, ·)).count (w, x) =
      (l.map Prod.snd).count w * (items w).count x := by
  induction l with
  | nil => simp
  | cons s l ih =>
    rw [List.flatMap_cons, List.count_append, ih, List.map_cons]
    by_cases hw : s.2 = w
    · subst hw
      have hinj : Function.Injective (Prod.mk s.2 : α → ν × α) := fun _ _ heq => (Prod.mk.inj heq).2
      rw [List.count_map_of_injective _ _ hinj, List.count_cons_self, Nat.succ_mul, Nat.add_comm]
    · have hnone : (w, x) ∉ (items s.2).map (s.2, ·) := by
        intro hmem
        obtain ⟨_, _, heq⟩ := List.mem_map.mp hmem
        exact hw (Prod.mk.inj heq).1
      rw [List.count_eq_zero.mpr hnone, List.count_cons_of_ne hw, Nat.zero_add]

theorem acc_of_unroll (h : unroll steps n v = some l) : Acc (fun w v => ∃ e, Edge steps v e w) v := by
  induction n generalizing v l with
  | zero => cases h
  | succ n ih =>
    obtain ⟨k, hk, rfl⟩ := unroll_succ_eq_some.mp h
    refine .intro v fun w ⟨e, he⟩ => ?_
    obtain ⟨k', hk'⟩ := gather_eq hk he
    obtain ⟨k'', hw, rfl⟩ := Option.map_eq_some_iff.mp hk'
    exact ih hw

/-- A depth that is enough for each of finitely many nodes. -/
private theorem exists_depth {ss : List (ε × ν)} (h : ∀ s ∈ ss, ∃ n l, unroll steps n s.2 = some l) :
    ∃ n, ∀ s ∈ ss, ∃ l, unroll steps n s.2 = some l := by
  induction ss with
  | nil => exact ⟨0, fun s hs => absurd hs List.not_mem_nil⟩
  | cons s ss ih =>
    obtain ⟨n, hn⟩ := ih fun s' hs' => h s' (List.mem_cons_of_mem _ hs')
    obtain ⟨n', l, hl⟩ := h s (List.mem_cons_self ..)
    refine ⟨max n n', fun s' hs' => ?_⟩
    cases hs' with
    | head => exact ⟨l, unroll_mono hl (Nat.le_max_right ..)⟩
    | tail _ hs' =>
      obtain ⟨l', hl'⟩ := hn s' hs'
      exact ⟨l', unroll_mono hl' (Nat.le_max_left ..)⟩

theorem unroll_of_acc (h : Acc (fun w v => ∃ e, Edge steps v e w) v) : ∃ n l, unroll steps n v = some l := by
  induction h with
  | intro v _ ih =>
    obtain ⟨n, hn⟩ := exists_depth fun s hs => ih s.2 ⟨s.1, hs⟩
    have hall : ∀ s ∈ steps v, ∃ k, (unroll steps n s.2).map (List.map (Prod.map (s.1 :: ·) id)) = some k := by
      intro s hs
      obtain ⟨l, hl⟩ := hn s hs
      exact ⟨_, congrArg (Option.map _) hl⟩
    obtain ⟨k, hk⟩ := exists_gather hall
    exact ⟨n + 1, _, unroll_succ_eq_some.mpr ⟨k, hk, rfl⟩⟩

private theorem acc_of_run {p : List ε} (hr : Run (Edge steps) v p w)
    (h : Acc (fun w v => ∃ e, Edge steps v e w) v) : Acc (fun w v => ∃ e, Edge steps v e w) w := by
  induction hr with
  | nil => exact h
  | cons he _ ih => exact ih (h.inv ⟨_, he⟩)

private theorem eq_nil_of_acc (h : Acc (fun w v => ∃ e, Edge steps v e w) v) :
    ∀ {q : List ε}, Run (Edge steps) v q v → q = [] := by
  induction h with
  | intro v _ ih =>
    intro q hq
    cases hq with
    | nil => rfl
    | @cons _ u _ e q he hr =>
      -- the cycle can be entered one node later
      have hcycle := hr.append (.cons he (.nil u))
      exact absurd (ih u ⟨e, he⟩ hcycle) (List.append_ne_nil_of_right_ne_nil _ (List.cons_ne_nil e []))

/-- On finitely many nodes there is an unrolling exactly if no walk meets a node that
can be reached from itself. -/
theorem unrolls_iff [Finite ν] : (∃ n l, unroll steps n v = some l) ↔
    ∀ p w, Run (Edge steps) v p w → ∀ q, Run (Edge steps) w q w → q = [] := by
  constructor
  · rintro ⟨n, l, h⟩ p w hp q hq
    exact eq_nil_of_acc (acc_of_run hp (acc_of_unroll h)) hq
  · intro h
    let later : ν → ν → Prop := fun w u => (∃ p, Run (Edge steps) v p u) ∧ ∃ e q, Run (Edge steps) u (e :: q) w
    have : IsTrans ν later := by
      refine ⟨fun a b c => ?_⟩
      rintro ⟨_, e, q, hba⟩ ⟨hc, e', q', hcb⟩
      exact ⟨hc, e', q' ++ e :: q, hcb.append hba⟩
    have : Std.Irrefl later := by
      refine ⟨fun a => ?_⟩
      rintro ⟨⟨p, hp⟩, e, q, hq⟩
      cases h p a hp _ hq
    have hwf : WellFounded later := Finite.wellFounded_of_trans_of_irrefl later
    have hacc : ∀ u, (∃ p, Run (Edge steps) v p u) → Acc (fun w v => ∃ e, Edge steps v e w) u := by
      intro u
      induction u using hwf.induction with
      | h u ih =>
        rintro ⟨p, hp⟩
        refine .intro u fun w ⟨e, he⟩ => ?_
        exact ih w ⟨⟨p, hp⟩, e, [], .cons he (.nil w)⟩ ⟨p ++ [e], hp.append (.cons he (.nil w))⟩
    exact unroll_of_acc (hacc v ⟨[], .nil v⟩)

end GeckoOS.Lib
