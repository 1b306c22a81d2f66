import GeckoOS.Editor.TwoLists
import GeckoOS.Lib.Lines

/-! Up and down keep the column as far as the other line has it: the scans of the
buffer find the line and the column of a place in its text. -/
namespace GeckoOS.Editor.Buffer
open Lib
variable {e : Buffer}

/-- The characters in front of the end. -/
def content (e : Buffer) : List UInt8 := slice e.buf 0 e.len

/-- The cursor is in the text. -/
structure Inside (e : Buffer) : Prop where
  cur_nonneg : 0 ≤ e.cur
  cur_le : e.cur ≤ e.len

/-- The lines of the text. -/
def lines (e : Buffer) : List (List UInt8) := e.content.splitOn newline

/-- The cursor is in column `c` of line `n`. -/
def At (e : Buffer) (n c : Nat) : Prop :=
    ∃ line, e.lines[n]? = some line ∧ c ≤ line.length ∧ e.cur = lineOffset e.lines n + c

theorem slice_cons (buf : Memory) {i j : Int} (h : i < j) : slice buf i j = buf i :: slice buf (i + 1) j := by
  have hone := slice_succ buf (Int.le_refl i)
  rw [slice_self, List.nil_append] at hone
  rw [← slice_append buf (show i ≤ i + 1 by omega) h, hone]
  rfl

theorem take_content {k : Nat} (h : (k : Int) ≤ e.len) : e.content.take k = slice e.buf 0 k := by
  have happ := slice_append e.buf (show (0 : Int) ≤ k by omega) h
  have hlen : (slice e.buf 0 k).length = k := by
    rw [slice_length]
    omega
  rw [content, ← happ, List.take_left' hlen]

theorem drop_content {k : Nat} (h : (k : Int) ≤ e.len) : e.content.drop k = slice e.buf k e.len := by
  have happ := slice_append e.buf (show (0 : Int) ≤ k by omega) h
  have hlen : (slice e.buf 0 k).length = k := by
    rw [slice_length]
    omega
  rw [content, ← happ, List.drop_left' hlen]

/-! What the scans compute. -/

theorem newlines_eq (n : Nat) (lines : Int) : e.newlines n lines = lines + (slice e.buf 0 n).count newline := by
  induction n with
  | zero => simp [newlines, slice_self]
  | succ n ih =>
    have hrest : e.newlines (n + 1) lines = if e.buf n = newline then e.newlines n lines +
      1 else e.newlines n lines := by
      simp only [newlines, List.range_succ, List.foldl_append, List.foldl_cons, List.foldl_nil]
    rw [hrest, ih, Int.natCast_succ, slice_succ e.buf (by omega), List.count_append]
    by_cases hc : e.buf n = newline
    · rw [if_pos hc, hc, List.count_singleton_self]
      omega
    · rw [if_neg hc, List.count_singleton, if_neg (by simpa using hc)]
      omega

theorem le_newlines (n : Nat) (lines : Int) : lines ≤ e.newlines n lines := by
  rw [newlines_eq]
  omega

theorem lineStartLoop_eq (n pos line : Int) (hpos : pos ≤ e.len) :
    e.lineStartLoop n pos line = pos + scanLines newline (n - line).toNat (slice e.buf pos e.len) := by
  fun_induction lineStartLoop e n pos line with
  | case1 pos line hcond ih =>
    obtain ⟨hline, hlt⟩ := hcond
    have hn : (n - line).toNat = (n - line - 1).toNat + 1 := by omega
    have ih := ih (by omega)
    simp only [dite_eq_ite] at ih
    rw [ih, slice_cons e.buf hlt, hn, scanLines]
    by_cases hc : e.buf pos = newline
    · rw [if_pos hc, if_pos hc, show n - (line + 1) = n - line - 1 by omega]
      omega
    · rw [if_neg hc, if_neg hc, ← hn]
      omega
  | case2 pos line hcond =>
    rcases Int.lt_or_le line n with hline | hline
    · rw [show pos = e.len by omega, slice_self]
      cases (n - line).toNat <;> simp [scanLines]
    · rw [show (n - line).toNat = 0 by omega, scanLines]
      omega

theorem colLoop_eq (i : Nat) (col : Int) :
    e.colLoop i col = col + ((slice e.buf 0 i).reverse.takeWhile (· ≠ newline)).length := by
  induction i generalizing col with
  | zero => simp [colLoop, slice_self]
  | succ i ih =>
    rw [colLoop, ih, Int.natCast_succ, slice_succ e.buf (by omega), List.reverse_append, List.reverse_singleton,
      List.singleton_append]
    by_cases hc : e.buf i ≠ newline
    · rw [if_pos hc, List.takeWhile_cons_of_pos (by simpa using hc), List.length_cons]
      omega
    · rw [if_neg hc, List.takeWhile_cons_of_neg (by simpa using hc)]
      simp

theorem lenLoop_eq (start len : Int) :
    e.lenLoop start len = len + ((slice e.buf (start + len) e.len).takeWhile (· ≠ newline)).length := by
  fun_induction lenLoop e start len with
  | case1 len hcond ih =>
    obtain ⟨hlt, hc⟩ := hcond
    rw [ih, slice_cons e.buf hlt, List.takeWhile_cons_of_pos (by simpa using hc), List.length_cons,
      show start + (len + 1) = start + len + 1 by omega]
    omega
  | case2 len hcond =>
    rcases Int.lt_or_le (start + len) e.len with hlt | hle
    · have hc : e.buf (start + len) = newline := by
        by_contra hc
        exact hcond ⟨hlt, hc⟩
      rw [slice_cons e.buf hlt, List.takeWhile_cons_of_neg (by simpa using hc)]
      simp
    · have hnil : slice e.buf (start + len) e.len = [] := by
        rw [← List.length_eq_zero_iff, slice_length]
        omega
      simp [hnil]

/-! The lines. -/

theorem countLines_eq (h : 0 ≤ e.len) : e.countLines = e.lines.length := by
  rw [countLines, newlines_eq, lines, length_splitOn, content, Int.toNat_of_nonneg h]
  omega

theorem lineStart_eq (h : 0 ≤ e.len) {n : Nat} (hn : n < e.lines.length) :
    e.lineStart n = lineOffset e.lines n := by
  rw [lineStart, lineStartLoop_eq _ _ _ h, Int.sub_zero, Int.toNat_natCast, Int.zero_add, ← content,
    scanLines_eq hn, lines]

theorem lineOffset_le (h : 0 ≤ e.len) {n : Nat} (hn : n < e.lines.length) :
    (lineOffset e.lines n : Int) ≤ e.len := by
  rw [← lineStart_eq h hn]
  exact (lineStartLoop_bounds n 0 0 h).2

theorem lineLen_eq (h : 0 ≤ e.len) {n : Nat} {line : List UInt8} (hline : e.lines[n]? = some line) :
    e.lineLen n = line.length := by
  have hn : n < e.lines.length := (List.getElem?_eq_some_iff.mp hline).1
  rw [lineLen, lenLoop_eq, lineStart_eq h hn, Int.add_zero, ← drop_content (lineOffset_le h hn), lines,
    takeWhile_line hline,
    Int.zero_add]

/-- The scans find the place of the cursor, and there is no other. -/
theorem at_iff (h : e.Inside) {n c : Nat} : e.At n c ↔ e.offsetToLine e.cur = n ∧ e.offsetToCol e.cur = c := by
  obtain ⟨k, hk⟩ : ∃ k : Nat, e.cur = k := ⟨e.cur.toNat, (Int.toNat_of_nonneg h.cur_nonneg).symm⟩
  have hle : (k : Int) ≤ e.len := hk ▸ h.cur_le
  have hlength : k ≤ e.content.length := by
    rw [content, slice_length]
    omega
  have hplace : e.At n c ↔ Place newline e.content k n c := by
    simp only [At, Place, lines, hk]
    refine exists_congr fun line => and_congr_right fun _ => and_congr_right fun _ => ?_
    omega
  have hline : e.offsetToLine e.cur = ((e.content.take k).count newline : Int) := by
    rw [offsetToLine, hk, Int.min_eq_left hle, Int.toNat_natCast, newlines_eq, Int.zero_add, take_content hle]
  have hcol : e.offsetToCol e.cur = (column newline e.content k : Int) := by
    rw [offsetToCol, hk, Int.toNat_natCast, colLoop_eq, Int.zero_add, column, take_content hle]
  rw [hplace, place_iff, hline, hcol]
  omega

/-- The same column in another line, or its end. -/
theorem at_sameColumn (h : e.Inside) {n m c : Nat} (hat : e.At n c) {line : List UInt8}
    (hline : e.lines[m]? = some line) :
    ({ e with cur := e.sameColumn m } : Buffer).At m (min c line.length) := by
  have hlen : 0 ≤ e.len := Int.le_trans h.cur_nonneg h.cur_le
  refine ⟨line, hline, Nat.min_le_right _ _, ?_⟩
  have hm : m < e.lines.length := (List.getElem?_eq_some_iff.mp hline).1
  show e.sameColumn m = (lineOffset e.lines m : Int) + (min c line.length : Nat)
  rw [sameColumn, lineStart_eq hlen hm, lineLen_eq hlen hline, ((at_iff h).mp hat).2]
  rcases Nat.lt_or_ge line.length c with hlt | hge
  · rw [if_pos (by omega), Nat.min_eq_right (by omega)]
  · rw [if_neg (by omega), Nat.min_eq_left hge]

theorem moveUp_first (h : e.Inside) {c : Nat} (hat : e.At 0 c) : e.moveUp = e := by
  rw [moveUp, ((at_iff h).mp hat).1]
  rfl

theorem moveUp_eq (h : e.Inside) {n c : Nat} (hat : e.At (n + 1) c) :
    e.moveUp = { e with cur := e.sameColumn n } := by
  rw [moveUp, ((at_iff h).mp hat).1]
  have hne : (n : Int) + 1 ≠ 0 := by omega
  simp only [Int.natCast_succ, if_neg hne, Int.add_sub_cancel]

theorem moveDown_last (h : e.Inside) {n c : Nat} (hat : e.At n c) (hn : n + 1 = e.lines.length) :
    e.moveDown = e := by
  have hlen : 0 ≤ e.len := Int.le_trans h.cur_nonneg h.cur_le
  rw [moveDown, ((at_iff h).mp hat).1, countLines_eq hlen]
  simp only [if_pos (show (e.lines.length : Int) - 1 ≤ n by omega)]

theorem moveDown_eq (h : e.Inside) {n c : Nat} (hat : e.At n c) (hn : n + 1 < e.lines.length) :
    e.moveDown = { e with cur := e.sameColumn (n + 1 : Nat) } := by
  have hlen : 0 ≤ e.len := Int.le_trans h.cur_nonneg h.cur_le
  rw [moveDown, ((at_iff h).mp hat).1, countLines_eq hlen]
  simp only [if_neg (show ¬ (e.lines.length : Int) - 1 ≤ n by omega), Int.natCast_succ]

theorem inside_sameColumn (h : e.Inside) (n : Int) : ({ e with cur := e.sameColumn n } : Buffer).Inside :=
  have hbounds := sameColumn_bounds n (Int.le_trans h.cur_nonneg h.cur_le)
  ⟨hbounds.1, hbounds.2⟩

/-- Down undoes up if the upper line has the column. -/
theorem moveUp_moveDown (h : e.Inside) {n c : Nat} (hat : e.At (n + 1) c) {upper : List UInt8}
    (hupper : e.lines[n]? = some upper)
    (hc : c ≤ upper.length) : e.moveUp.moveDown = e := by
  have hat' : ({ e with cur := e.sameColumn n } : Buffer).At n c := by
    have := at_sameColumn h hat hupper
    rwa [Nat.min_eq_left hc] at this
  have hinside := inside_sameColumn h n
  obtain ⟨line, hline, hle, hcur⟩ := hat
  have hdown := at_sameColumn hinside hat' (m := n + 1) hline
  obtain ⟨-, -, -, hback⟩ := hdown
  rw [moveUp_eq h ⟨line, hline, hle, hcur⟩, moveDown_eq hinside hat' (List.getElem?_eq_some_iff.mp hline).1]
  rw [Nat.min_eq_left hle] at hback
  have hsame := hback.trans hcur.symm
  simp only at hsame ⊢
  rw [hsame]

/-- The cursor has one line and column; up and down go to the neighbouring line and
keep the column as far as that line has it, at the first and the last line they do
nothing, and down undoes up if the upper line has the column. -/
theorem vertical_moves (h : e.Inside) :
    ∃ n c, (∀ m d, e.At m d ↔ m = n ∧ d = c) ∧
      (n = 0 → e.moveUp = e) ∧
      (∀ upper, 0 < n → e.lines[n - 1]? = some upper →
        ∃ cur, e.moveUp = { e with cur } ∧ e.moveUp.At (n - 1) (min c upper.length)) ∧
      (n + 1 = e.lines.length → e.moveDown = e) ∧
      (∀ lower, e.lines[n + 1]? = some lower →
        ∃ cur, e.moveDown = { e with cur } ∧ e.moveDown.At (n + 1) (min c lower.length)) ∧
      (∀ upper, 0 < n → e.lines[n - 1]? = some upper → c ≤ upper.length → e.moveUp.moveDown = e) := by
  obtain ⟨n, hn⟩ := Int.eq_ofNat_of_zero_le (le_newlines (e := e) (min e.cur e.len).toNat 0)
  obtain ⟨c, hc⟩ := Int.eq_ofNat_of_zero_le (le_colLoop (e := e) e.cur.toNat 0)
  have hat : e.At n c := (at_iff h).mpr ⟨hn, hc⟩
  refine ⟨n, c, fun m d => ⟨fun h' => ?_, ?_⟩, ?_, ?_, fun hlast =>
    moveDown_last h hat hlast, fun lower hlower => ?_, ?_⟩
  · obtain ⟨hm, hd⟩ := (at_iff h).mp h'
    have hm := hn.symm.trans hm
    have hd := hc.symm.trans hd
    omega
  · rintro ⟨rfl, rfl⟩
    exact hat
  · rintro rfl
    exact moveUp_first h hat
  · intro upper hpos hupper
    obtain ⟨n, rfl⟩ := Nat.exists_eq_add_one.mpr hpos
    rw [moveUp_eq h hat]
    exact ⟨_, rfl, at_sameColumn h hat hupper⟩
  · rw [moveDown_eq h hat (List.getElem?_eq_some_iff.mp hlower).1]
    exact ⟨_, rfl, at_sameColumn h hat hlower⟩
  · intro upper hpos hupper hle
    obtain ⟨n, rfl⟩ := Nat.exists_eq_add_one.mpr hpos
    exact moveUp_moveDown h hat hupper hle

/-- From behind the only character of a second line, up and down again. -/
theorem vertical_moves_return : ({ opened (fun _ => 0) [97, 10, 98] with cur := 3 } : Buffer).moveUp.moveDown =
    { opened (fun _ => 0) [97, 10, 98] with cur := 3 } := by
  obtain ⟨n, c, hat, -, -, -, -, hback⟩ :=
    vertical_moves (e := { opened (fun _ => 0) [97, 10, 98] with cur := 3 })
    ⟨by decide, by decide⟩
  obtain ⟨rfl, rfl⟩ := (hat 1 1).mp ⟨[98], rfl, by decide, rfl⟩
  exact hback [97] Nat.one_pos rfl (by decide)

end GeckoOS.Editor.Buffer
