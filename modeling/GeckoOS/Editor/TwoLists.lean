import GeckoOS.Editor.Buffer
import GeckoOS.Lib.Runs
import Mathlib.Data.List.Induction

/-! The buffer is a text with a cursor in it: the characters in front of the
cursor and those behind it. -/
namespace GeckoOS.Editor
open Lib

/-- An editor without a buffer. -/
structure TwoLists where
  before : List UInt8
  after : List UInt8

namespace TwoLists

def text (t : TwoLists) : List UInt8 := t.before ++ t.after

def insert (t : TwoLists) (c : UInt8) : TwoLists :=
  if t.text.length = 4095 then t else ⟨t.before ++ [c], t.after⟩
def backspace (t : TwoLists) : TwoLists := ⟨t.before.dropLast, t.after⟩

def left (t : TwoLists) : TwoLists := ⟨t.before.dropLast, t.before.getLast?.toList ++ t.after⟩
def right (t : TwoLists) : TwoLists := ⟨t.before ++ t.after.head?.toList, t.after.tail⟩

/-- What a key may do. Vertical moves only have to leave the text as it is. -/
def Step (t : TwoLists) (key : Key) (t' : TwoLists) : Prop :=
  match key with
  | .insert c => t' = t.insert c
  | .backspace => t' = t.backspace
  | .left => t' = t.left
  | .right => t' = t.right
  | .up | .down => t'.text = t.text
  | .save _ => t' = t

theorem left_text (t : TwoLists) : t.left.text = t.text := by
  rcases List.eq_nil_or_concat t.before with hnil | ⟨before, c, hc⟩
  · simp [left, text, hnil]
  · simp [left, text, hc]

theorem right_text (t : TwoLists) : t.right.text = t.text := by
  rcases t with ⟨before, _ | ⟨c, after⟩⟩
  · simp [right, text]
  · simp [right, text]

/-- Only insertions and deletions change the text. -/
theorem Step.text {t t' : TwoLists} {key : Key} (h : t.Step key t') (hins : ∀ c, key ≠ .insert c)
    (hback : key ≠ .backspace) :
    t'.text = t.text := by
  cases key with
  | insert c => exact absurd rfl (hins c)
  | backspace => exact absurd rfl hback
  | left => exact (congrArg TwoLists.text h).trans t.left_text
  | right => exact (congrArg TwoLists.text h).trans t.right_text
  | up | down => exact h
  | save written => exact congrArg TwoLists.text h

/-- The key is an insertion or a deletion, and there is room or a character for it. -/
def Effective (t : TwoLists) : Key → Prop
  | .insert _ => t.text.length ≠ 4095
  | .backspace => t.before ≠ []
  | _ => False

theorem effective_insert (t : TwoLists) (c : UInt8) : t.Effective (.insert c) ↔ t.text.length ≠ 4095 := Iff.rfl

theorem effective_backspace (t : TwoLists) : t.Effective .backspace ↔ t.before ≠ [] := Iff.rfl

theorem not_effective (t : TwoLists) {key : Key} (hi : ∀ c, key ≠ .insert c) (hb : key ≠ .backspace) :
    ¬ t.Effective key := by
  cases key with
  | insert c => exact absurd rfl (hi c)
  | backspace => exact absurd rfl hb
  | _ => exact id

end TwoLists

namespace Buffer

/-- The characters from offset `i` up to `j`. -/
def slice (buf : Memory) (i j : Int) : List UInt8 := (List.range (j - i).toNat).map fun k : Nat => buf (i + k)

variable {buf buf' : Memory} {i j k : Int}

theorem slice_length (buf : Memory) (i j : Int) : (slice buf i j).length = (j - i).toNat := by simp [slice]

theorem slice_self (buf : Memory) (i : Int) : slice buf i i = [] := by simp [slice]

theorem slice_succ (buf : Memory) (h : i ≤ j) : slice buf i (j + 1) = slice buf i j ++ [buf j] := by
  rw [slice, show (j + 1 - i).toNat = (j - i).toNat +
    1 by omega, List.range_succ, List.map_append, slice, List.map_singleton,
    show i + ((j - i).toNat : Int) = j by omega]

/-- The same characters at a distance `d`. -/
theorem slice_congr {d : Int} (h : ∀ k, i ≤ k → k < j → buf' (k + d) = buf k) :
    slice buf' (i + d) (j + d) = slice buf i j := by
  rw [slice, slice, show j + d - (i + d) = j - i by omega]
  refine List.map_congr_left fun k hk => ?_
  have hk : k < (j - i).toNat := List.mem_range.mp hk
  rw [← h (i + k) (by omega) (by omega), show i + d + (k : Int) = i + k + d by omega]

theorem slice_unchanged (h : ∀ k, i ≤ k → k < j → buf' k = buf k) : slice buf' i j = slice buf i j := by
  simpa only [Int.add_zero] using slice_congr (d := 0) (fun k hk hk' => by rw [Int.add_zero, h k hk hk'])

theorem slice_append (buf : Memory) (hij : i ≤ j) (hjk : j ≤ k) :
    slice buf i j ++ slice buf j k = slice buf i k := by
  obtain ⟨n, rfl⟩ : ∃ n : Nat, k = j + n := ⟨(k - j).toNat, by omega⟩
  induction n with
  | zero =>
    rw [Int.natCast_zero, Int.add_zero, slice_self, List.append_nil]
  | succ n ih =>
    have ih := ih (by omega)
    rw [show j + ((n + 1 : Nat) : Int) =
      j + n + 1 by omega, slice_succ buf (by omega), slice_succ buf (by omega), ← List.append_assoc, ih]

/-! The two loops that move characters. -/

theorem shiftUp_apply (cur : Int) (n : Nat) (buf : Memory) (k : Int) :
    shiftUp cur n buf k = if cur < k ∧ k ≤ cur + n then buf (k - 1) else buf k := by
  induction n generalizing buf with
  | zero => rw [shiftUp, if_neg (by omega)]
  | succ n ih =>
    rw [shiftUp, ih]
    simp only [Function.update_apply]
    by_cases hk : k = cur + n + 1
    · subst hk
      rw [if_neg (by omega), if_pos rfl, if_pos (by omega), show cur + (n : Int) + 1 - 1 = cur + n by omega]
    · rw [if_neg hk]
      by_cases hin : cur < k ∧ k ≤ cur + n
      · rw [if_pos hin, if_neg (by omega), if_pos (by omega)]
      · rw [if_neg hin, if_neg (by omega)]

theorem shiftDown_apply (n : Nat) (i : Int) (buf : Memory) (k : Int) :
    shiftDown n i buf k = if i ≤ k ∧ k < i + n then buf (k + 1) else buf k := by
  induction n generalizing i buf with
  | zero => rw [shiftDown, if_neg (by omega)]
  | succ n ih =>
    rw [shiftDown, ih]
    simp only [Function.update_apply]
    by_cases hk : k = i
    · subst hk
      rw [if_neg (by omega), if_pos rfl, if_pos (by omega)]
    · rw [if_neg hk]
      by_cases hin : i + 1 ≤ k ∧ k < i + 1 + n
      · rw [if_pos hin, if_neg (by omega), if_pos (by omega)]
      · rw [if_neg hin, if_neg (by omega)]

/-! The lines, as far as they bound the cursor. -/

variable {e : Buffer}

theorem lineStartLoop_bounds (n pos line : Int) (h : pos ≤ e.len) :
    pos ≤ e.lineStartLoop n pos line ∧ e.lineStartLoop n pos line ≤ e.len := by
  fun_induction lineStartLoop e n pos line with
  | case1 pos line hcond ih =>
    have ih := ih (by omega)
    simp only [dite_eq_ite] at ih
    omega
  | case2 pos line hcond => exact ⟨Int.le_refl pos, h⟩

theorem lenLoop_bounds (start len : Int) (h : start + len ≤ e.len) :
    len ≤ e.lenLoop start len ∧ start + e.lenLoop start len ≤ e.len := by
  fun_induction lenLoop e start len with
  | case1 len hcond ih =>
    have ih := ih (by omega)
    omega
  | case2 len hcond => exact ⟨Int.le_refl len, h⟩

theorem le_colLoop (i : Nat) (col : Int) : col ≤ e.colLoop i col := by
  induction i generalizing col with
  | zero => exact Int.le_refl col
  | succ i ih =>
    rw [colLoop]
    split
    · have := ih (col + 1)
      omega
    · exact Int.le_refl col

theorem sameColumn_bounds (n : Int) (h : 0 ≤ e.len) : 0 ≤ e.sameColumn n ∧ e.sameColumn n ≤ e.len := by
  obtain ⟨hs, hs'⟩ : 0 ≤ e.lineStart n ∧ e.lineStart n ≤ e.len := lineStartLoop_bounds n 0 0 h
  obtain ⟨hl, hl'⟩ : 0 ≤ e.lineLen n ∧ e.lineStart n + e.lineLen n ≤ e.len :=
    lenLoop_bounds (e.lineStart n) 0 (by rw [Int.add_zero]; exact hs')
  have hcol : 0 ≤ e.offsetToCol e.cur := le_colLoop _ 0
  rcases Int.lt_or_le (e.lineLen n) (e.offsetToCol e.cur) with hlt | hge
  · rw [sameColumn, if_pos hlt]
    omega
  · rw [sameColumn, if_neg (by omega)]
    omega

/-! The keys. -/

/-- The cursor is in the text, the text in the buffer, and a NUL behind it. -/
structure Valid (e : Buffer) : Prop where
  cur_nonneg : 0 ≤ e.cur
  cur_le : e.cur ≤ e.len
  len_le : e.len ≤ 4095
  nul : e.buf e.len = 0

def view (e : Buffer) : TwoLists := ⟨slice e.buf 0 e.cur, slice e.buf e.cur e.len⟩

theorem Valid.text (h : e.Valid) : e.view.text = slice e.buf 0 e.len := slice_append e.buf h.cur_nonneg h.cur_le

theorem Valid.text_length (h : e.Valid) : e.view.text.length = e.len.toNat := by
  rw [h.text, slice_length, Int.sub_zero]

theorem Valid.before_eq_nil (h : e.Valid) : e.view.before = [] ↔ e.cur = 0 := by
  have hlen : e.view.before.length = e.cur.toNat := by
    rw [view, slice_length, Int.sub_zero]
  have hcur := h.cur_nonneg
  rw [← List.length_eq_zero_iff, hlen]
  omega

theorem insert_refines (h : e.Valid) (c : UInt8) :
    (e.insert c).Valid ∧ (e.insert c).view = e.view.insert c := by
  have ⟨h0, hcur, hlen, hnul⟩ := h
  rw [TwoLists.insert, h.text_length, Buffer.insert]
  by_cases hfull : editorMaxFilesize - 1 ≤ e.len
  · rw [editorMaxFilesize] at hfull
    rw [if_pos (by rwa [editorMaxFilesize]), if_pos (by omega)]
    exact ⟨h, rfl⟩
  · rw [editorMaxFilesize] at hfull
    rw [if_neg (by rwa [editorMaxFilesize]), if_neg (by omega)]
    refine ⟨⟨by simp only; omega, by simp only; omega, by simp only; omega, Function.update_self ..⟩, ?_⟩
    have hbuf : ∀ k, Function.update
      (Function.update (shiftUp e.cur (e.len - e.cur).toNat e.buf) e.cur c) (e.len + 1) 0 k =
        if k = e.len + 1 then 0 else if k = e.cur then c else if e.cur < k ∧ k ≤ e.len then e.buf
          (k - 1) else e.buf k := by
      intro k
      simp only [Function.update_apply, shiftUp_apply, show e.cur + ((e.len - e.cur).toNat : Int) =
        e.len by omega]
    simp only [view]
    rw [slice_succ _ h0, hbuf e.cur, if_neg (by omega), if_pos rfl]
    congr 1
    · congr 1
      refine slice_unchanged fun k hk hk' => ?_
      rw [hbuf, if_neg (by omega), if_neg (by omega), if_neg (by omega)]
    · refine slice_congr (d := 1) fun k hk hk' => ?_
      rw [hbuf, if_neg (by omega), if_neg (by omega), if_pos (by omega), show k + 1 - 1 = k by omega]

theorem backspace_refines (h : e.Valid) : e.backspace.Valid ∧ e.backspace.view = e.view.backspace := by
  have ⟨h0, hcur, hlen, hnul⟩ := h
  rw [TwoLists.backspace, Buffer.backspace]
  by_cases hz : e.cur = 0
  · rw [if_pos hz, h.before_eq_nil.mpr hz]
    refine ⟨h, ?_⟩
    rw [view, hz, slice_self]
    rfl
  · rw [if_neg hz]
    refine ⟨⟨by simp only; omega, by simp only; omega, by simp only; omega, Function.update_self ..⟩, ?_⟩
    have hbuf : ∀ k, Function.update (shiftDown (e.len - 1 - (e.cur - 1)).toNat (e.cur - 1) e.buf)
      (e.len - 1) 0 k =
        if k = e.len - 1 then 0 else if e.cur - 1 ≤ k ∧ k < e.len - 1 then e.buf (k + 1) else e.buf k := by
      intro k
      simp only [Function.update_apply, shiftDown_apply,
        show e.cur - 1 + ((e.len - 1 - (e.cur - 1)).toNat : Int) = e.len - 1 by omega]
    have hbefore : slice e.buf 0 e.cur = slice e.buf 0 (e.cur - 1) ++ [e.buf (e.cur - 1)] := by
      rw [← slice_succ e.buf (by omega), Int.sub_add_cancel]
    simp only [view]
    rw [hbefore, List.dropLast_concat]
    congr 1
    · refine slice_unchanged fun k hk hk' => ?_
      rw [hbuf, if_neg (by omega), if_neg (by omega)]
    · refine slice_congr (d := -1) fun k hk hk' => ?_
      rw [hbuf, if_neg (by omega), if_pos (by omega), show k + -1 + 1 = k by omega]

theorem moveLeft_refines (h : e.Valid) : e.moveLeft.Valid ∧ e.moveLeft.view = e.view.left := by
  have ⟨h0, hcur, hlen, hnul⟩ := h
  rw [moveLeft]
  by_cases hz : 0 < e.cur
  · rw [if_pos hz]
    refine ⟨⟨by simp only; omega, by simp only; omega, hlen, hnul⟩, ?_⟩
    have hbefore : slice e.buf 0 e.cur = slice e.buf 0 (e.cur - 1) ++ [e.buf (e.cur - 1)] := by
      rw [← slice_succ e.buf (by omega), Int.sub_add_cancel]
    have hafter : slice e.buf (e.cur - 1) e.len = [e.buf (e.cur - 1)] ++ slice e.buf e.cur e.len := by
      rw [← slice_append e.buf (show e.cur - 1 ≤ e.cur by omega) hcur]
      congr 1
      have hone := slice_succ e.buf (Int.le_refl (e.cur - 1))
      rwa [slice_self, Int.sub_add_cancel, List.nil_append] at hone
    simp only [view, TwoLists.left]
    rw [hbefore, List.dropLast_concat, List.getLast?_concat, hafter]
    rfl
  · rw [if_neg hz]
    have hstart : e.cur = 0 := by omega
    refine ⟨h, ?_⟩
    rw [view, TwoLists.left, hstart, slice_self]
    rfl

theorem moveRight_refines (h : e.Valid) : e.moveRight.Valid ∧ e.moveRight.view = e.view.right := by
  have ⟨h0, hcur, hlen, hnul⟩ := h
  rw [moveRight]
  by_cases hz : e.cur < e.len
  · rw [if_pos hz]
    refine ⟨⟨by simp only; omega, by simp only; omega, hlen, hnul⟩, ?_⟩
    have hafter : slice e.buf e.cur e.len = e.buf e.cur :: slice e.buf (e.cur + 1) e.len := by
      rw [← slice_append e.buf (show e.cur ≤ e.cur + 1 by omega) hz,
        slice_succ e.buf (Int.le_refl e.cur), slice_self]
      rfl
    simp only [view, TwoLists.right]
    rw [slice_succ e.buf h0, hafter]
    rfl
  · rw [if_neg hz]
    have hend : e.cur = e.len := by omega
    refine ⟨h, ?_⟩
    rw [view, TwoLists.right, hend, slice_self]
    simp

/-- A move to any place in the text. -/
theorem jump_refines (h : e.Valid) {cur : Int} (hcur : 0 ≤ cur ∧ cur ≤ e.len) :
    ({ e with cur := cur } : Buffer).Valid ∧ ({ e with cur := cur } : Buffer).view.text = e.view.text := by
  have hv : ({ e with cur := cur } : Buffer).Valid := ⟨hcur.1, hcur.2, h.len_le, h.nul⟩
  exact ⟨hv, hv.text.trans h.text.symm⟩

theorem step_refines (h : e.Valid) (key : Key) : (e.step key).Valid ∧
    TwoLists.Step e.view key (e.step key).view := by
  have hlen : 0 ≤ e.len := Int.le_trans h.cur_nonneg h.cur_le
  cases key with
  | insert c => exact insert_refines h c
  | backspace => exact backspace_refines h
  | left => exact moveLeft_refines h
  | right => exact moveRight_refines h
  | up =>
    rw [step, moveUp]
    split
    · exact ⟨h, rfl⟩
    · exact jump_refines h (sameColumn_bounds _ hlen)
  | down =>
    rw [step, moveDown]
    split
    · exact ⟨h, rfl⟩
    · exact jump_refines h (sameColumn_bounds _ hlen)
  | save written =>
    cases written with
    | false => exact ⟨h, rfl⟩
    | true => exact ⟨⟨h.cur_nonneg, h.cur_le, h.len_le, h.nul⟩, rfl⟩

/-- Which keys leave the buffer marked as changed. -/
theorem step_dirty (h : e.Valid) (key : Key) :
    (e.step key).dirty = true ↔ e.view.Effective key ∨ (e.dirty = true ∧ key ≠ .save true) := by
  have hlen : 0 ≤ e.len := Int.le_trans h.cur_nonneg h.cur_le
  cases key with
  | insert c =>
    have hfull : (4096 - 1 ≤ e.len) ↔ e.len.toNat = 4095 := by
      have := h.len_le
      omega
    rw [step, Buffer.insert, TwoLists.effective_insert, h.text_length, editorMaxFilesize]
    by_cases hroom : 4096 - 1 ≤ e.len
    · rw [if_pos hroom]
      simp [hfull.mp hroom]
    · rw [if_neg hroom]
      simp [hfull.not.mp hroom]
  | backspace =>
    rw [step, Buffer.backspace, TwoLists.effective_backspace, ne_eq, h.before_eq_nil]
    by_cases hz : e.cur = 0
    · simp [hz]
    · simp [hz]
  | left =>
    rw [step, moveLeft]
    split <;> simp [TwoLists.not_effective]
  | right =>
    rw [step, moveRight]
    split <;> simp [TwoLists.not_effective]
  | up =>
    simp only [step, moveUp]
    split <;> simp [TwoLists.not_effective]
  | down =>
    simp only [step, moveDown]
    split <;> simp [TwoLists.not_effective]
  | save written => cases written <;> simp [step, save, TwoLists.not_effective]

/-! Whole runs. -/

theorem run_append (e : Buffer) (keys keys' : List Key) : e.run (keys ++ keys') = (e.run keys).run keys' :=
  List.foldl_append ..

theorem run_refines (h : e.Valid) (keys : List Key) : (e.run keys).Valid ∧
    Run TwoLists.Step e.view keys (e.run keys).view := by
  induction keys generalizing e with
  | nil => exact ⟨h, .nil _⟩
  | cons key keys ih =>
    obtain ⟨hv, hstep⟩ := step_refines h key
    obtain ⟨hv', hrun⟩ := ih hv
    exact ⟨hv', .cons hstep hrun⟩

/-- The mark tells whether a key has taken effect since the last successful save. -/
theorem run_dirty (h : e.Valid) (hclean : e.dirty = false) (keys : List Key) :
    (e.run keys).dirty = true ↔
      ∃ pre key post, keys = pre ++ key :: post ∧ (e.run pre).view.Effective key ∧ .save true ∉ post := by
  induction keys using List.reverseRecOn with
  | nil => simp [run, hclean]
  | append_singleton keys last ih =>
    rw [run_append]
    have hstep := step_dirty (run_refines h keys).1 last
    rw [show (e.run keys).run [last] = (e.run keys).step last from rfl, hstep, ih]
    constructor
    · rintro (heff | ⟨⟨pre, key, post, rfl, heff, hpost⟩, hlast⟩)
      · exact ⟨keys, last, [], rfl, heff, List.not_mem_nil⟩
      · exact ⟨pre, key, post ++ [last], by simp, heff, by simpa [hpost] using hlast.symm⟩
    · rintro ⟨pre, key, post, heq, heff, hpost⟩
      rcases List.eq_nil_or_concat post with rfl | ⟨post, last', rfl⟩
      · obtain ⟨rfl, rfl⟩ : keys = pre ∧ last = key := by simpa using heq
        exact .inl heff
      · obtain ⟨rfl, rfl⟩ : keys = pre ++ key :: post ∧ last = last' := by
          have := heq
          simp only [List.concat_eq_append, ← List.cons_append, ← List.append_assoc] at this
          exact ⟨(List.append_inj' this rfl).1, by simpa using (List.append_inj' this rfl).2⟩
        simp only [List.concat_eq_append, List.mem_append, List.mem_singleton, not_or] at hpost
        exact .inr ⟨⟨pre, key, post, rfl, heff, hpost.1⟩, fun hsave => hpost.2 hsave.symm⟩

theorem opened_valid (memory : Memory) {content : List UInt8} (h : content.length ≤ 4095) :
    (opened memory content).Valid := by
  refine ⟨Int.le_refl 0, by simp [opened], by simp only [opened]; omega, ?_⟩
  simp [opened]

theorem opened_view (memory : Memory) (content : List UInt8) :
    (opened memory content).view = ⟨[], content⟩ := by
  have hafter : slice (opened memory content).buf 0 content.length = content := by
    refine List.ext_getElem (by simp [slice]) fun i hi hi' => ?_
    simp [slice, opened, hi']
  simp only [view]
  rw [show (opened memory content).cur = 0 from rfl, slice_self,
    show (opened memory content).len = content.length from rfl, hafter]

/-- The editor on any file that fits is the editor of two lists, in every state that it
reaches and over whole runs; only insertions and deletions change its text, and
they alone mark it as changed. -/
theorem editor_refines (memory : Memory) (content : List UInt8) (h : content.length ≤ 4095) (keys : List Key) :
    ((opened memory content).run keys).Valid ∧
    Run TwoLists.Step ⟨[], content⟩ keys ((opened memory content).run keys).view ∧
    (∀ key, TwoLists.Step ((opened memory content).run keys).view key
      (((opened memory content).run keys).step key).view ∧
      ((∀ c, key ≠ .insert c) → key ≠ .backspace →
        (((opened memory content).run keys).step key).view.text =
        ((opened memory content).run keys).view.text)) ∧
    (((opened memory content).run keys).dirty = true ↔ ∃ pre key post, keys = pre ++ key :: post ∧
      ((opened memory content).run pre).view.Effective key ∧ .save true ∉ post) := by
  have hv := opened_valid memory h
  obtain ⟨hv', hrun⟩ := run_refines hv keys
  rw [opened_view] at hrun
  have hstep := fun key => (step_refines hv' key).2
  exact ⟨hv', hrun, fun key => ⟨hstep key, (hstep key).text⟩, run_dirty hv rfl keys⟩

/-- Two characters in front of the file, a move back, a deletion, and a move that does nothing. -/
theorem editor_refines_typing :
    ∃ e, e = (opened (fun _ => 1) [97]).run [.insert 98, .insert 10, .left, .backspace] ∧
    e.Valid ∧ e.view = ⟨[], [10, 97]⟩ ∧ (e.step .left).view = ⟨[], [10, 97]⟩ ∧ e.dirty = true := by
  obtain ⟨hv, -, hstep, hdirty⟩ :=
    editor_refines (fun _ => 1) [97] (by decide) [.insert 98, .insert 10, .left, .backspace]
  have hview : ((opened (fun _ => 1) [97]).run [.insert 98, .insert 10, .left, .backspace]).view =
    ⟨[], [10, 97]⟩ := by
    with_unfolding_all rfl
  refine ⟨_, rfl, hv, hview, ?_, hdirty.mpr ⟨[], .insert 98, _, rfl, ?_, by decide⟩⟩
  · have hleft : _ = TwoLists.left _ := (hstep .left).1
    rw [hleft, hview]
    rfl
  · exact (by decide : 1 ≠ 4095)

end Buffer
end GeckoOS.Editor
