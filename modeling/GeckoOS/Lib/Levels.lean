import Mathlib.Data.List.Infix
import Mathlib.Data.List.Perm.Subperm
import Mathlib.Order.Lattice
import Mathlib.Tactic.Common

/-! Levels of nesting by indentation: a stack of the levels that are open, the deepest
one in front, and what it holds in terms of the indentations so far. -/
namespace GeckoOS.Lib
variable {α : Type} [LinearOrder α]

/-- The stack for a line of indentation `w`: a deeper line opens a level, a shallower one
closes the levels that are deeper. -/
def reindent (b w : α) (stack : List α) : List α :=
  if stack.headD b < w then w :: stack else stack.dropWhile (w < ·)

/-- The stack behind some lines; `b` is the level of the margin. -/
def levels (b : α) (ws : List α) : List α := ws.foldl (fun stack w => reindent b w stack) [b]

/-- The indentations of the lines that have no shallower one behind them. -/
def enclosing : List α → List α
  | [] => []
  | x :: xs => if ∀ v ∈ xs, x ≤ v then (enclosing xs).insert x else enclosing xs

/-- The blocks that are open at a line of indentation `w`, named by their indentations: a
line deeper than the margin and all of them opens one, any other closes those that are deeper. -/
def reblock (b w : α) (opened : List α) : List α :=
  if b < w ∧ ∀ x ∈ opened, x < w then w :: opened else opened.filter (· ≤ w)

def blocks (b : α) (ws : List α) : List α := ws.foldl (fun opened w => reblock b w opened) []

/-- Every line is deeper than the one before it, or at the margin, or as deep as a line that
has no shallower one behind it. -/
def Consistent (b : α) (ws : List α) : Prop :=
  ∀ pre w, pre ++ [w] <+: ws → pre.getLastD b < w ∨ w = b ∨ w ∈ enclosing pre

/-- Behind every line, the deepest open level is its own. -/
def Level (b : α) (ws : List α) : Prop := ∀ pre w, pre ++ [w] <+: ws → (levels b (pre ++ [w])).headD b = w

variable {b w x : α} {ws stack : List α}

theorem levels_snoc (b w : α) (ws : List α) : levels b (ws ++ [w]) = reindent b w (levels b ws) :=
  List.foldl_append

theorem mem_enclosing_cons {y : α} : x ∈ enclosing (y :: ws) ↔ (x = y ∧ ∀ v ∈ ws, x ≤ v) ∨
    x ∈ enclosing ws := by
  rw [enclosing]
  split
  · next hy =>
    rw [List.mem_insert_iff]
    constructor
    · rintro (rfl | hx)
      · exact .inl ⟨rfl, hy⟩
      · exact .inr hx
    · rintro (⟨rfl, -⟩ | hx)
      · exact .inl rfl
      · exact .inr hx
  · next hy =>
    constructor
    · exact .inr
    · rintro (⟨rfl, hx⟩ | hx)
      · exact absurd hx hy
      · exact hx

theorem mem_enclosing_snoc : x ∈ enclosing (ws ++ [w]) ↔ x = w ∨ x ∈ enclosing ws ∧ x ≤ w := by
  induction ws with
  | nil => simp [enclosing]
  | cons y ws ih =>
    rw [List.cons_append, mem_enclosing_cons, ih, mem_enclosing_cons]
    simp only [List.mem_append, List.mem_singleton, or_imp, forall_and, forall_eq]
    tauto

/-- The shape of the stack: ever deeper levels above the margin. -/
structure Stacked (b : α) (stack : List α) : Prop where
  sorted : stack.Pairwise (· > ·)
  margin : stack.getLast? = some b

namespace Stacked

theorem single (b : α) : Stacked b [b] := ⟨List.pairwise_singleton _ _, rfl⟩

/-- The head is the greatest element. -/
theorem le_headD (h : Stacked b stack) (hx : x ∈ stack) : x ≤ stack.headD b := by
  cases stack with
  | nil => cases hx
  | cons top stack =>
    cases hx with
    | head => exact le_refl _
    | tail _ hx => exact le_of_lt (List.rel_of_pairwise_cons h.sorted hx)

theorem mem_margin (h : Stacked b stack) : b ∈ stack := List.mem_of_getLast? h.margin

theorem tail {top : α} (h : Stacked b (top :: stack)) (hne : top ≠ b) : Stacked b stack := by
  refine ⟨h.sorted.tail, ?_⟩
  cases stack with
  | nil => exact absurd (Option.some.inj h.margin) hne
  | cons y stack => exact h.margin

/-- What stays is what is not deeper. -/
theorem dropWhile (h : Stacked b stack) (hb : b ≤ w) :
    Stacked b (stack.dropWhile (w < ·)) ∧ ∀ x, x ∈ stack.dropWhile (w < ·) ↔ x ∈ stack ∧ x ≤ w := by
  induction stack with
  | nil => cases h.margin
  | cons top stack ih =>
    by_cases htop : w < top
    · rw [List.dropWhile_cons_of_pos (by simpa using htop)]
      obtain ⟨hstacked, hmem⟩ := ih (h.tail (ne_of_gt (lt_of_le_of_lt hb htop)))
      refine ⟨hstacked, fun x => ?_⟩
      rw [hmem, List.mem_cons]
      constructor
      · exact fun hx => ⟨.inr hx.1, hx.2⟩
      · rintro ⟨rfl | hx, hle⟩
        · exact absurd htop (not_lt.mpr hle)
        · exact ⟨hx, hle⟩
    · rw [List.dropWhile_cons_of_neg (by simpa using htop)]
      refine ⟨h, fun x => ⟨fun hx => ⟨hx, ?_⟩, And.left⟩⟩
      exact (h.le_headD hx).trans (not_lt.mp htop)

theorem reindent (h : Stacked b stack) (hb : b ≤ w) : Stacked b (reindent b w stack) ∧
    ∀ x, x ∈ Lib.reindent b w stack ↔ x ∈ stack ∧ x ≤ w ∨ x = w ∧ stack.headD b < w := by
  unfold Lib.reindent
  split
  · next hlt =>
    have hbelow : ∀ x ∈ stack, x < w := fun x hx => lt_of_le_of_lt (h.le_headD hx) hlt
    refine ⟨⟨List.pairwise_cons.mpr ⟨hbelow, h.sorted⟩, ?_⟩, fun x => ?_⟩
    · cases stack with
      | nil => cases h.margin
      | cons top stack => exact h.margin
    · rw [List.mem_cons]
      constructor
      · rintro (rfl | hx)
        · exact .inr ⟨rfl, hlt⟩
        · exact .inl ⟨hx, le_of_lt (hbelow x hx)⟩
      · rintro (hx | hx)
        · exact .inr hx.1
        · exact .inl hx.1
  · next hlt =>
    obtain ⟨hstacked, hmem⟩ := h.dropWhile hb
    refine ⟨hstacked, fun x => ?_⟩
    rw [hmem]
    exact ⟨.inl, fun hx => hx.elim id fun hx => absurd hx.2 hlt⟩

/-- The line is at the top exactly if it opens a level or is at one that is open. -/
theorem headD_reindent (h : Stacked b stack) (hb : b ≤ w) :
    (Lib.reindent b w stack).headD b = w ↔ stack.headD b < w ∨ w ∈ stack := by
  obtain ⟨hstacked, hmem⟩ := h.reindent hb
  have htop : (Lib.reindent b w stack).headD b ∈ Lib.reindent b w stack := by
    cases hr : Lib.reindent b w stack with
    | nil =>
      rw [hr] at hstacked
      cases hstacked.margin
    | cons top rest => exact List.mem_cons_self ..
  constructor
  · intro heq
    rw [heq] at htop
    obtain hx | hx := (hmem w).mp htop
    · exact .inr hx.1
    · exact .inl hx.2
  · intro hw
    have hin : w ∈ Lib.reindent b w stack := (hmem w).mpr <| by
      obtain hlt | hin := hw
      · exact .inr ⟨rfl, hlt⟩
      · exact .inl ⟨hin, le_refl w⟩
    refine le_antisymm ?_ (hstacked.le_headD hin)
    obtain hx | hx := (hmem _).mp htop
    · exact hx.2
    · exact le_of_eq hx.1

end Stacked

omit [LinearOrder α] in
private theorem forall_prefix_snoc {P : List α → α → Prop} : (∀ pre v, pre ++ [v] <+: ws ++ [w] → P pre v) ↔
    (∀ pre v, pre ++ [v] <+: ws → P pre v) ∧ P ws w := by
  constructor
  · intro h
    exact ⟨fun pre v hpre => h pre v (hpre.trans (List.prefix_append ws [w])), h ws w (List.prefix_refl _)⟩
  · rintro ⟨hws, hw⟩ pre v hpre
    obtain heq | hpre := List.prefix_concat_iff.mp hpre
    · obtain ⟨rfl, rfl⟩ := List.append_inj' heq rfl |>.imp id fun h => List.singleton_inj.mp h
      exact hw
    · exact hws pre v hpre

private theorem headD_levels (h : Level b ws) : (levels b ws).headD b = ws.getLastD b := by
  induction ws using List.reverseRecOn with
  | nil => rfl
  | append_singleton ws w _ =>
    rw [List.getLastD_concat]
    exact h ws w (List.prefix_refl _)

variable (hb : ∀ w : α, b ≤ w)
include hb

theorem stacked_levels (ws : List α) : Stacked b (levels b ws) := by
  induction ws using List.reverseRecOn with
  | nil => exact .single b
  | append_singleton ws w ih =>
    rw [levels_snoc]
    exact (ih.reindent (hb w)).1

/-- A level that is open is that of a line with no shallower one behind it, or the margin. -/
theorem mem_enclosing_of_mem_levels (h : x ∈ levels b ws) : x = b ∨ x ∈ enclosing ws := by
  induction ws using List.reverseRecOn with
  | nil => exact .inl (List.mem_singleton.mp h)
  | append_singleton ws w ih =>
    rw [levels_snoc] at h
    rw [mem_enclosing_snoc]
    obtain ⟨hx, hle⟩ | ⟨rfl, -⟩ := (((stacked_levels hb ws).reindent (hb w)).2 x).mp h
    · obtain rfl | hx := ih hx
      · exact .inl rfl
      · exact .inr (.inr ⟨hx, hle⟩)
    · exact .inr (.inl rfl)

omit hb in
private theorem dropWhile_eq_filter (h : stack.Pairwise (· > ·)) (w : α) :
    stack.dropWhile (w < ·) = stack.filter (· ≤ w) := by
  induction stack with
  | nil => rfl
  | cons top stack ih =>
    obtain ⟨htop, hrest⟩ := List.pairwise_cons.mp h
    by_cases hlt : w < top
    · rw [List.dropWhile_cons_of_pos (by simpa using hlt),
        List.filter_cons_of_neg (by simpa using hlt), ih hrest]
    · have hall : ∀ x ∈ stack, x ≤ w := fun x hx => (htop x hx).le.trans (not_lt.mp hlt)
      rw [List.dropWhile_cons_of_neg (by simpa using hlt), List.filter_cons_of_pos (by simpa using hlt),
        List.filter_eq_self.mpr fun x hx => by simpa using hall x hx]

/-- The stack holds the open blocks and the margin. -/
theorem reindent_blocks (h : Stacked b (stack ++ [b])) (w : α) :
    reindent b w (stack ++ [b]) = reblock b w stack ++ [b] := by
  have hle := hb w
  have hleft : (stack ++ [b]).dropWhile (w < ·) = stack.filter (· ≤ w) ++ [b] := by
    rw [dropWhile_eq_filter h.sorted, List.filter_append, List.filter_cons_of_pos (by simpa using hle),
      List.filter_nil]
  have hopens : (stack ++ [b]).headD b < w ↔ b < w ∧ ∀ x ∈ stack, x < w := by
    constructor
    · intro hlt
      exact ⟨lt_of_le_of_lt (h.le_headD (by simp)) hlt,
        fun x hx => lt_of_le_of_lt (h.le_headD (List.mem_append_left _ hx)) hlt⟩
    · rintro ⟨hmargin, hbelow⟩
      cases stack with
      | nil => exact hmargin
      | cons top stack => exact hbelow top (List.mem_cons_self ..)
  rw [reindent, reblock]
  by_cases hlt : (stack ++ [b]).headD b < w
  · rw [if_pos hlt, if_pos (hopens.mp hlt), List.cons_append]
  · rw [if_neg hlt, if_neg (mt hopens.mpr hlt), hleft]

/-- Where every line has had its level, exactly these levels are open. -/
private theorem mem_levels_iff (h : Level b ws) : x ∈ levels b ws ↔ x = b ∨ x ∈ enclosing ws := by
  refine ⟨mem_enclosing_of_mem_levels hb, ?_⟩
  induction ws using List.reverseRecOn with
  | nil => simp [levels, enclosing]
  | append_singleton ws w ih =>
    obtain ⟨hws, hw⟩ := forall_prefix_snoc.mp h
    have hmem := ((stacked_levels hb ws).reindent (hb w)).2 x
    rintro (rfl | hx)
    · exact (stacked_levels hb _).mem_margin
    · rw [levels_snoc] at hw ⊢
      rw [mem_enclosing_snoc] at hx
      obtain rfl | ⟨hx, hle⟩ := hx
      · have hopen := ((stacked_levels hb ws).headD_reindent (hb x)).mp hw
        exact hmem.mpr (hopen.elim (fun hlt => .inr ⟨rfl, hlt⟩) fun hin => .inl ⟨hin, le_refl x⟩)
      · exact hmem.mpr (.inl ⟨ih hws (.inr hx), hle⟩)

/-- The deepest open level is that of the last line wherever all lines are consistent. -/
theorem level_iff (ws : List α) : Level b ws ↔ Consistent b ws := by
  induction ws using List.reverseRecOn with
  | nil =>
    refine iff_of_true (fun pre w h => ?_) fun pre w h => ?_
    · exact absurd (List.prefix_nil.mp h) (List.append_ne_nil_of_right_ne_nil pre (List.cons_ne_nil w []))
    · exact absurd (List.prefix_nil.mp h) (List.append_ne_nil_of_right_ne_nil pre (List.cons_ne_nil w []))
  | append_singleton ws w ih =>
    rw [Level, forall_prefix_snoc, Consistent, forall_prefix_snoc]
    show Level b ws ∧ _ ↔ Consistent b ws ∧ _
    rw [← ih]
    refine and_congr_right fun hws => ?_
    rw [levels_snoc, (stacked_levels hb ws).headD_reindent (hb w), headD_levels hws, mem_levels_iff hb hws]

end GeckoOS.Lib
