import Mathlib.Algebra.Ring.Nat
import Mathlib.Data.List.TakeWhile
import Mathlib.Tactic.Common

/-! Places in a list that separators split into lines: the offset of a place, and the
line and the column that a scan of the list from there finds. -/
namespace GeckoOS.Lib
variable {α : Type}

/-- Where line `n` begins if a separator stands behind each line. -/
def lineOffset (ls : List (List α)) (n : Nat) : Nat := ((ls.take n).map (·.length + 1)).sum

@[simp] theorem lineOffset_zero (ls : List (List α)) : lineOffset ls 0 = 0 := rfl

@[simp] theorem lineOffset_cons_succ (l : List α) (ls : List (List α)) (n : Nat) :
    lineOffset (l :: ls) (n + 1) = l.length + 1 + lineOffset ls n := by
  rw [lineOffset, List.take_succ_cons, List.map_cons, List.sum_cons, lineOffset]

variable [DecidableEq α] {sep a : α} {t l : List α} {ls : List (List α)} {k n c : Nat}

/-- Offset `k` is in column `c` of line `n`. -/
def Place (sep : α) (t : List α) (k n c : Nat) : Prop :=
  ∃ l, (t.splitOn sep)[n]? = some l ∧ c ≤ l.length ∧ k = lineOffset (t.splitOn sep) n + c

/-- The offset behind `n` separators, or the end. -/
def scanLines (sep : α) : Nat → List α → Nat
  | 0, _ => 0
  | _ + 1, [] => 0
  | n + 1, a :: t => scanLines sep (if a = sep then n else n + 1) t + 1

/-- A separator in front adds an empty line. -/
theorem splitOn_sep (t : List α) : (sep :: t).splitOn sep = [] :: t.splitOn sep := by
  rw [List.splitOn_cons_eq_if_modifyHead, if_pos (beq_self_eq_true sep)]

/-- Anything else in front goes into the first line. -/
theorem splitOn_other (h : a ≠ sep) (t : List α) :
    ∃ l ls, t.splitOn sep = l :: ls ∧ (a :: t).splitOn sep = (a :: l) :: ls := by
  obtain ⟨l, ls, hsplit⟩ := List.exists_cons_of_ne_nil (List.splitOn_ne_nil sep t)
  refine ⟨l, ls, hsplit, ?_⟩
  rw [List.splitOn_cons_eq_if_modifyHead, if_neg (by simpa using h), hsplit, List.modifyHead_cons]

theorem length_splitOn (sep : α) (t : List α) : (t.splitOn sep).length = t.count sep + 1 := by
  induction t with
  | nil => rfl
  | cons a t ih =>
    by_cases ha : a = sep
    · subst ha
      rw [splitOn_sep, List.length_cons, ih, List.count_cons_self]
    · obtain ⟨l, ls, hsplit, hcons⟩ := splitOn_other ha t
      rw [hsplit] at ih
      rw [hcons, List.count_cons_of_ne ha, ← ih]
      rfl

theorem scanLines_eq (hn : n < (t.splitOn sep).length) : scanLines sep n t = lineOffset (t.splitOn sep) n := by
  induction t generalizing n with
  | nil =>
    obtain rfl : n = 0 := by simpa using hn
    rfl
  | cons a t ih =>
    cases n with
    | zero => rfl
    | succ n =>
      by_cases ha : a = sep
      · subst ha
        rw [splitOn_sep, List.length_cons] at hn
        rw [scanLines, if_pos rfl, splitOn_sep, lineOffset_cons_succ, ih (Nat.lt_of_succ_lt_succ hn)]
        exact Nat.add_comm ..
      · obtain ⟨l, ls, hsplit, hcons⟩ := splitOn_other ha t
        rw [hcons, List.length_cons] at hn
        rw [scanLines, if_neg ha, hcons, lineOffset_cons_succ, ih (by rw [hsplit]; exact hn), hsplit,
          lineOffset_cons_succ, List.length_cons]
        omega

/-- From the beginning of a line on, the line ends at the next separator. -/
theorem takeWhile_line (hl : (t.splitOn sep)[n]? = some l) :
    (t.drop (lineOffset (t.splitOn sep) n)).takeWhile (· ≠ sep) = l := by
  induction t generalizing n l with
  | nil =>
    cases n with
    | zero => simpa using hl
    | succ n => simp at hl
  | cons a t ih =>
    by_cases ha : a = sep
    · subst ha
      rw [splitOn_sep] at hl ⊢
      cases n with
      | zero =>
        rw [lineOffset_zero, List.drop_zero, List.takeWhile_cons_of_neg (by simp)]
        exact Option.some.inj hl
      | succ n =>
        rw [lineOffset_cons_succ, List.length_nil, Nat.zero_add, Nat.add_comm 1, List.drop_succ_cons]
        exact ih hl
    · obtain ⟨first, ls, hsplit, hcons⟩ := splitOn_other ha t
      rw [hsplit] at ih
      rw [hcons] at hl ⊢
      cases n with
      | zero =>
        have hfirst := ih (n := 0) rfl
        rw [lineOffset_zero, List.drop_zero] at hfirst ⊢
        rw [List.takeWhile_cons_of_pos (by simpa using ha), hfirst]
        exact Option.some.inj hl
      | succ n =>
        have hrest := ih (n := n + 1) hl
        rw [lineOffset_cons_succ] at hrest ⊢
        rwa [List.length_cons, Nat.add_right_comm, List.drop_succ_cons]

/-- The characters between the last separator in front of offset `k` and `k`. -/
def column (sep : α) (t : List α) (k : Nat) : Nat := ((t.take k).reverse.takeWhile (· ≠ sep)).length

theorem column_cons_sep (t : List α) (k : Nat) : column sep (sep :: t) (k + 1) = column sep t k := by
  rw [column, List.take_succ_cons, List.reverse_cons, List.takeWhile_append]
  split
  · next hall => rw [List.takeWhile_cons_of_neg (by simp), List.append_nil, column, hall]
  · rfl

theorem column_cons_of_notMem (ha : a ≠ sep) (h : sep ∉ t.take k) :
    column sep (a :: t) (k + 1) = column sep t k + 1 := by
  have hall : (t.take k).reverse.takeWhile (· ≠ sep) = (t.take k).reverse := by
    refine List.takeWhile_eq_self_iff.mpr fun x hx => ?_
    simp only [decide_eq_true_eq]
    rintro rfl
    exact h (List.mem_reverse.mp hx)
  rw [column, List.take_succ_cons, List.reverse_cons, List.takeWhile_append, hall, if_pos rfl,
    List.takeWhile_cons_of_pos (by simpa using ha), column, hall, List.length_append]
  rfl

theorem column_cons_of_mem (h : sep ∈ t.take k) : column sep (a :: t) (k + 1) = column sep t k := by
  have hall : ((t.take k).reverse.takeWhile (· ≠ sep)).length ≠ (t.take k).reverse.length := by
    intro heq
    have hself := (List.takeWhile_prefix (fun x => decide (x ≠ sep)) (l := (t.take k).reverse)).eq_of_length heq
    have := List.takeWhile_eq_self_iff.mp hself sep (List.mem_reverse.mpr h)
    simp at this
  rw [column, List.take_succ_cons, List.reverse_cons, List.takeWhile_append, if_neg hall, column]

theorem place_zero : Place sep t 0 n c ↔ n = 0 ∧ c = 0 := by
  obtain ⟨l, ls, hsplit⟩ := List.exists_cons_of_ne_nil (List.splitOn_ne_nil sep t)
  rw [Place, hsplit]
  constructor
  · rintro ⟨l', -, -, hk⟩
    cases n with
    | zero => simpa [eq_comm] using hk
    | succ n =>
      rw [lineOffset_cons_succ] at hk
      omega
  · rintro ⟨rfl, rfl⟩
    exact ⟨l, rfl, Nat.zero_le _, rfl⟩

theorem place_cons_sep : Place sep (sep :: t) (k + 1) n c ↔ ∃ m, n = m + 1 ∧ Place sep t k m c := by
  simp only [Place, splitOn_sep]
  cases n with
  | zero =>
    refine iff_of_false ?_ fun ⟨m, hm, _⟩ => Nat.succ_ne_zero m hm.symm
    rintro ⟨l, hl, hc, hk⟩
    cases hl
    simp at hc hk
    omega
  | succ n =>
    simp only [lineOffset_cons_succ, List.getElem?_cons_succ, List.length_nil]
    constructor
    · rintro ⟨l, hl, hc, hk⟩
      exact ⟨n, rfl, l, hl, hc, by omega⟩
    · rintro ⟨m, hm, l, hl, hc, hk⟩
      obtain rfl : n = m := Nat.succ.inj hm
      exact ⟨l, hl, hc, by omega⟩

theorem place_cons_other (ha : a ≠ sep) :
    Place sep (a :: t) (k + 1) n c ↔ if n = 0 then ∃ d, c = d + 1 ∧
    Place sep t k 0 d else Place sep t k n c := by
  obtain ⟨first, ls, hsplit, hcons⟩ := splitOn_other ha t
  simp only [Place, hsplit, hcons]
  cases n with
  | zero =>
    simp only [if_true, lineOffset_zero, List.getElem?_cons_zero, Option.some.injEq, exists_eq_left',
      List.length_cons]
    constructor
    · rintro ⟨hc, hk⟩
      exact ⟨k, by omega, by omega, by omega⟩
    · rintro ⟨d, rfl, hd, hk⟩
      omega
  | succ n =>
    simp only [if_neg (Nat.succ_ne_zero n), lineOffset_cons_succ, List.getElem?_cons_succ, List.length_cons]
    refine exists_congr fun l => and_congr_right fun _ => and_congr_right fun _ => ?_
    omega

/-- Every offset in the list has one place. -/
theorem place_iff : Place sep t k n c ↔ k ≤ t.length ∧ (t.take k).count sep = n ∧ column sep t k = c := by
  induction t generalizing k n c with
  | nil =>
    cases k with
    | zero =>
      rw [place_zero]
      simp [column, eq_comm]
    | succ k =>
      refine iff_of_false ?_ (by simp)
      rintro ⟨l, hl, hc, hk⟩
      cases n with
      | zero =>
        obtain rfl : [] = l := Option.some.inj hl
        simp at hc hk
        omega
      | succ n => cases hl
  | cons a t ih =>
    cases k with
    | zero =>
      rw [place_zero]
      simp [column, eq_comm]
    | succ k =>
      rw [List.take_succ_cons, List.length_cons, Nat.succ_le_succ_iff]
      by_cases ha : a = sep
      · subst ha
        rw [place_cons_sep, column_cons_sep, List.count_cons_self]
        constructor
        · rintro ⟨m, rfl, h⟩
          obtain ⟨hk, rfl, hc⟩ := ih.mp h
          exact ⟨hk, rfl, hc⟩
        · rintro ⟨hk, rfl, hc⟩
          exact ⟨_, rfl, ih.mpr ⟨hk, rfl, hc⟩⟩
      · rw [place_cons_other ha, List.count_cons_of_ne ha]
        split
        · next hn =>
          subst hn
          constructor
          · rintro ⟨d, rfl, h⟩
            obtain ⟨hk, hcount, rfl⟩ := ih.mp h
            exact ⟨hk, hcount, column_cons_of_notMem ha (List.count_eq_zero.mp hcount)⟩
          · rintro ⟨hk, hcount, rfl⟩
            exact ⟨_, column_cons_of_notMem ha (List.count_eq_zero.mp hcount), ih.mpr ⟨hk, hcount, rfl⟩⟩
        · next hn =>
          rw [ih]
          refine and_congr_right fun _ => and_congr_right fun hcount => ?_
          rw [column_cons_of_mem (List.count_pos_iff.mp (by omega))]

end GeckoOS.Lib
