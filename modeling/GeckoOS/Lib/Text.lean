import GeckoOS.Lib.Bytes
import Mathlib.Data.List.TakeWhile
import Mathlib.Logic.Function.Basic

/-! Texts in memory that end with a NUL. -/
namespace GeckoOS.Lib.View
variable (m src : View)

/-- The text at the start of the memory, up to a NUL and within `n` bytes. -/
def text (n : Nat) : List UInt8 := (m.bytes 0 n).takeWhile (· ≠ 0)

/-- Copy from place `k` on until a NUL or the limit, which is where the copy ends. -/
def copyText (limit k : Nat) (dest : View) : View × Nat :=
  if src k ≠ 0 ∧ k < limit then copyText limit (k + 1) (Function.update dest k (src k)) else (dest, k)
termination_by limit - k

variable {m src}

theorem length_text_le (m : View) (n : Nat) : (m.text n).length ≤ n :=
  (List.takeWhile_sublist _).length_le.trans (by simp)

theorem zero_not_mem_text (m : View) (n : Nat) : 0 ∉ m.text n := by
  intro h
  have hne := List.mem_takeWhile_imp h
  simp at hne

/-- A text is what stands there. -/
theorem bytes_text (m : View) (n : Nat) : m.bytes 0 (m.text n).length = m.text n := by
  have htake : m.text n = (m.bytes 0 n).take (m.text n).length :=
    List.prefix_iff_eq_take.mp (List.takeWhile_prefix _)
  have hbytes : (m.bytes 0 n).take (m.text n).length = m.bytes 0 (m.text n).length := by
    have hdrop := bytes_drop_take m 0 n 0 (m.text n).length
    rwa [List.drop_zero, Nat.zero_add, Nat.sub_zero, Nat.min_eq_left (length_text_le m n)] at hdrop
  exact (htake.trans hbytes).symm

/-- No NUL within the limit. -/
theorem length_text_eq_iff (m : View) (n : Nat) : (m.text n).length = n ↔ m.text n = m.bytes 0 n := by
  constructor
  · intro h
    rw [← bytes_text, h]
  · intro h
    rw [h, bytes_length]

/-- One more byte, if there was no NUL before. -/
theorem text_succ (m : View) (n : Nat) :
    m.text (n + 1) = if (m.text n).length = n ∧ m n ≠ 0 then m.text n ++ [m n] else m.text n := by
  have hlast : m.bytes 0 (n + 1) = m.bytes 0 n ++ [m n] := by simp [bytes, List.range_succ]
  simp only [length_text_eq_iff]
  by_cases hfull : m.text n = m.bytes 0 n
  · have hall : ∀ b ∈ m.bytes 0 n, decide (b ≠ 0) = true := List.takeWhile_eq_self_iff.mp hfull
    rw [text, hlast, List.takeWhile_append_of_pos hall, hfull]
    by_cases hz : m n = 0
    · rw [if_neg fun h => h.2 hz, List.takeWhile_cons_of_neg (by simp [hz]), List.append_nil]
    · rw [if_pos ⟨rfl, hz⟩, List.takeWhile_cons_of_pos (by simp [hz]), List.takeWhile_nil]
  · have hshort : ((m.bytes 0 n).takeWhile (· ≠ 0)).length ≠ (m.bytes 0 n).length := by
      intro h
      rw [bytes_length] at h
      exact hfull ((length_text_eq_iff m n).mp h)
    rw [if_neg fun h => hfull h.1, text, hlast, List.takeWhile_append, if_neg hshort, text]

theorem text_add_of_le (m : View) {n k : Nat} (h : n ≤ k) : m.text n = (m.text k).take n := by
  induction k, h using Nat.le_induction with
  | base => rw [List.take_of_length_le (length_text_le m n)]
  | succ k hle ih =>
    rw [text_succ]
    split
    · next hfull => rw [List.take_append_of_le_length (by omega), ih]
    · exact ih

theorem text_eq_of_bytes {t : List UInt8} {n : Nat} (hbytes : m.bytes 0 t.length = t) (hzero : 0 ∉ t)
    (hend : t.length = n ∨ t.length < n ∧ m t.length = 0) : m.text n = t := by
  have hself : t.takeWhile (· ≠ 0) = t := by
    rw [List.takeWhile_eq_self_iff]
    exact fun b hb => decide_eq_true fun h => hzero (h ▸ hb)
  have hfull : m.text t.length = t := by rw [text, hbytes, hself]
  rcases hend with rfl | ⟨hlt, hnul⟩
  · exact hfull
  · induction n, hlt using Nat.le_induction with
    | base => rw [text_succ, if_neg fun h => h.2 hnul, hfull]
    | succ k hle ih =>
      rw [text_succ, ih, if_neg]
      intro h
      omega

/-- A text that is written with its NUL is read back. -/
theorem text_splice (m : View) {t : List UInt8} {n : Nat} (hzero : 0 ∉ t) (hle : t.length ≤ n) :
    (m.splice 0 (t ++ [0])).text n = t := by
  have hat : ∀ i, i < t.length + 1 → m.splice 0 (t ++ [0]) i = (t ++ [0]).getD i 0 := by
    intro i hi
    rw [splice, if_pos ⟨Nat.zero_le i, by simpa using hi⟩, Nat.sub_zero]
  refine text_eq_of_bytes (List.ext_getElem (by simp) fun i hi hi' => ?_) hzero ?_
  · simp only [bytes, List.getElem_map, List.getElem_range, Nat.zero_add]
    rw [hat i (by omega), List.getD_append _ _ _ _ hi', List.getD_eq_getElem _ _ hi']
  · rcases Nat.lt_or_ge t.length n with hlt | hge
    · refine .inr ⟨hlt, ?_⟩
      rw [hat _ (Nat.lt_succ_self _), List.getD_append_right _ _ _ _ (Nat.le_refl _)]
      simp
    · exact .inl (by omega)

theorem copyText_end (src : View) (limit k : Nat) (dest : View) (hfull : (src.text k).length = k)
    (hle : k ≤ limit) :
    src.copyText limit k dest = (dest.splice k ((src.text limit).drop k), (src.text limit).length) := by
  fun_induction copyText src limit k dest with
  | case1 k dest hgo ih =>
    have hnext : src.text (k + 1) = src.text k ++ [src k] := by rw [text_succ, if_pos ⟨hfull, hgo.1⟩]
    have hmore : (src.text (k + 1)).length = k + 1 := by
      rw [hnext, List.length_append, hfull, List.length_singleton]
    have hkeep : src.text (k + 1) = (src.text limit).take (k + 1) := text_add_of_le src hgo.2
    have hlong : k < (src.text limit).length := by
      rw [hkeep, List.length_take] at hmore
      omega
    have hat : (src.text limit)[k] = src k := by
      have hget : (src.text (k + 1))[k]? = (src.text limit)[k]? := by
        rw [hkeep, List.getElem?_take_of_lt (Nat.lt_succ_self k)]
      rw [hnext, List.getElem?_append_right (by omega), hfull, Nat.sub_self,
        List.getElem?_eq_getElem hlong] at hget
      exact (Option.some.inj hget).symm
    rw [ih hmore hgo.2, List.drop_eq_getElem_cons hlong, hat]
    refine Prod.ext (funext fun i => ?_) rfl
    simp only [splice, List.length_cons, Function.update_apply]
    by_cases hi : i = k
    · subst hi
      rw [if_neg (by omega), if_pos rfl, if_pos (by omega), Nat.sub_self, List.getD_cons_zero]
    · by_cases hrange : k + 1 ≤ i ∧ i < k + 1 + ((src.text limit).drop (k + 1)).length
      · obtain ⟨j, rfl⟩ := Nat.exists_eq_add_of_le hrange.1
        rw [if_pos hrange, if_pos (by omega), show k + 1 + j - (k + 1) =
          j by omega, show k + 1 + j - k = j + 1 by omega, List.getD_cons_succ]
      · rw [if_neg hrange, if_neg hi, if_neg (by omega)]
  | case2 k dest hstop =>
    have htext : (src.text limit).length = k := by
      rcases Nat.lt_or_ge k limit with hlt | hge
      · have hnul : src k = 0 := by
          by_contra hne
          exact hstop ⟨hne, hlt⟩
        have hall : src.text limit = src.text k :=
          text_eq_of_bytes (bytes_text src k) (zero_not_mem_text src k) (.inr ⟨by omega, by rw [hfull, hnul]⟩)
        rw [hall, hfull]
      · rw [show limit = k by omega, hfull]
    rw [List.drop_eq_nil_of_le (by omega), splice_nil, htext]

/-- The copy of a whole text. -/
theorem copyText_eq (src : View) (limit : Nat) (dest : View) :
    src.copyText limit 0 dest = (dest.splice 0 (src.text limit), (src.text limit).length) :=
  copyText_end src limit 0 dest rfl (Nat.zero_le _)

end GeckoOS.Lib.View
