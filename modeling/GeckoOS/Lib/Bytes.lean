import Mathlib.Algebra.Group.Int.Defs
import Mathlib.Algebra.Group.Nat.Defs
import Mathlib.Data.List.GetD
import Mathlib.Tactic.Common

/-! Little-endian words in byte-addressed memory. -/
namespace GeckoOS.Lib

/-- Memory as seen from a pointer. -/
abbrev View := Nat → UInt8

namespace View

def load16 (m : View) (o : Nat) : Nat := (m o).toNat + 2^8 * (m (o+1)).toNat

def load32 (m : View) (o : Nat) : Nat := m.load16 o + 2^16 * m.load16 (o+2)

def load64 (m : View) (o : Nat) : Nat := m.load32 o + 2^32 * m.load32 (o+4)

/-- Store a 32-bit word. -/
def store32 (m : View) (o v : Nat) : View := fun i =>
  if i = o then .ofNat v
  else if i = o+1 then .ofNat (v / 2^8)
  else if i = o+2 then .ofNat (v / 2^16)
  else if i = o+3 then .ofNat (v / 2^24)
  else m i

/-- The `n` bytes from offset `o` on. -/
def bytes (m : View) (o n : Nat) : List UInt8 := (List.range n).map fun i => m (o + i)

/-- The bytes from offset `o` on replaced, as by memcpy. -/
def splice (m : View) (o : Nat) (bs : List UInt8) : View := fun i =>
  if o ≤ i ∧ i < o + bs.length then bs.getD (i - o) 0 else m i

/-- Pointer arithmetic. -/
def shift (m : View) (o : Nat) : View := fun i => m (o + i)

/-- A buffer with these bytes. -/
def ofBytes (bs : List UInt8) : View := fun i => bs.getD i 0

@[simp] theorem bytes_length (m : View) (o n : Nat) : (m.bytes o n).length = n := by simp [bytes]

@[simp] theorem bytes_zero (m : View) (o : Nat) : m.bytes o 0 = [] := rfl

theorem bytes_add (m : View) (o a b : Nat) : m.bytes o (a + b) = m.bytes o a ++ m.bytes (o + a) b := by
  simp [bytes, List.range_add, Nat.add_assoc]

theorem bytes_congr {m m' : View} {o o' n : Nat} (h : ∀ i < n, m (o + i) = m' (o' + i)) :
    m.bytes o n = m'.bytes o' n := by
  unfold bytes
  apply List.map_congr_left
  intro i hi
  exact h i (List.mem_range.mp hi)

theorem shift_shift (m : View) (a b : Nat) : (m.shift a).shift b = m.shift (a + b) := by
  funext i
  simp [shift, Nat.add_assoc]

theorem bytes_drop_take (m : View) (o n a b : Nat) :
    ((m.bytes o n).drop a).take b = m.bytes (o + a) (min b (n - a)) := by
  apply List.ext_getElem
  · simp
  · intro i h1 h2
    simp [bytes, Nat.add_assoc]

theorem bytes_shift (m : View) (k o n : Nat) : (m.shift k).bytes o n = m.bytes (k + o) n := by
  apply bytes_congr
  intro i _
  rw [shift, Nat.add_assoc]

theorem shift_ofBytes (bs : List UInt8) (k : Nat) : (ofBytes bs).shift k = ofBytes (bs.drop k) := by
  funext i
  rw [shift, ofBytes, ofBytes, List.getD_eq_getElem?_getD, List.getD_eq_getElem?_getD, List.getElem?_drop]

theorem bytes_ofBytes (bs : List UInt8) {n : Nat} (h : n ≤ bs.length) : (ofBytes bs).bytes 0 n = bs.take n := by
  apply List.ext_getElem
  · rw [bytes_length, List.length_take, Nat.min_eq_left h]
  · intro i h₁ h₂
    rw [bytes_length] at h₁
    simp only [bytes, ofBytes, List.getElem_map, List.getElem_range, Nat.zero_add, List.getElem_take]
    exact List.getD_eq_getElem _ _ (by omega)

/-- Bytes in blocks of the same length. -/
theorem bytes_blocks (m : View) (n k : Nat) : m.bytes 0 (n * k) = (List.range n).flatMap fun j =>
  m.bytes (j * k) k := by
  induction n with
  | zero => simp
  | succ n ih =>
    rw [Nat.succ_mul, bytes_add, ih, List.range_succ, List.flatMap_append, Nat.zero_add]
    simp

@[simp] theorem splice_nil (m : View) (o : Nat) : m.splice o [] = m := by
  funext i
  exact if_neg (by simp)

theorem splice_append (m : View) (o : Nat) (as bs : List UInt8) :
    (m.splice o as).splice (o + as.length) bs = m.splice o (as ++ bs) := by
  funext i
  unfold splice
  rw [List.length_append]
  by_cases has : i < o + as.length
  · rw [if_neg (by omega)]
    by_cases ho : o ≤ i
    · rw [if_pos ⟨ho, has⟩, if_pos ⟨ho, by omega⟩, List.getD_append _ _ _ _ (by omega)]
    · rw [if_neg (by omega), if_neg (by omega)]
  · by_cases hbs : i < o + as.length + bs.length
    · rw [if_pos ⟨by omega, hbs⟩, if_pos ⟨by omega, by omega⟩,
        List.getD_append_right _ _ _ _ (by omega), Nat.sub_sub]
    · rw [if_neg (by omega), if_neg (by omega), if_neg (by omega)]

theorem splice_of_lt (m : View) {o i : Nat} (bs : List UInt8) (h : i < o) : m.splice o bs i = m i :=
  if_neg (by omega)

theorem splice_of_le (m : View) {o i : Nat} {bs : List UInt8} (h : o + bs.length ≤ i) : m.splice o bs i = m i :=
  if_neg (by omega)

/-- Two parts on the two sides of a boundary. -/
theorem splice_append_cut (m : View) {o k : Nat} {as bs : List UInt8} (hk : o + as.length ≤ k)
    (h : o + as.length = k ∨ bs = []) (i : Nat) :
    m.splice o (as ++ bs) i = if i < k then m.splice o as i else m.splice k bs i := by
  rcases h with rfl | rfl
  · rw [← splice_append]
    split
    · next hi => exact splice_of_lt _ _ hi
    · next hi =>
      have has : m.splice o as i = m i := splice_of_le m (by omega)
      unfold splice at has ⊢
      rw [has]
  · rw [List.append_nil, splice_nil]
    split
    · rfl
    · next hi => exact splice_of_le m (by omega)

theorem bytes_splice (m : View) {o n : Nat} {bs : List UInt8} (h : o + bs.length ≤ n) :
    (m.splice o bs).bytes 0 n = (m.bytes 0 n).take o ++ bs ++ (m.bytes 0 n).drop (o + bs.length) := by
  apply List.ext_getElem
  · simp
    omega
  · intro i h1 h2
    rw [bytes_length] at h1
    by_cases hlo : i < o
    · have ho : i < (List.take o (m.bytes 0 n) ++ bs).length := by
        simp
        omega
      rw [List.getElem_append_left ho, List.getElem_append_left (by simp; omega)]
      simp [bytes, splice, Nat.not_le.mpr hlo]
    · by_cases hhi : i < o + bs.length
      · have ho : i < (List.take o (m.bytes 0 n) ++ bs).length := by
          simp
          omega
        rw [List.getElem_append_left ho, List.getElem_append_right (by simp; omega)]
        simp only [bytes, splice, List.getElem_map, List.getElem_range, Nat.zero_add, List.length_take,
          List.length_map, List.length_range]
        rw [if_pos ⟨by omega, hhi⟩, List.getD_eq_getElem _ _ (by omega)]
        congr 1
        omega
      · rw [List.getElem_append_right (by simp; omega)]
        simp only [bytes, splice, List.getElem_map, List.getElem_range, List.getElem_drop, Nat.zero_add,
          List.length_append, List.length_take, List.length_map, List.length_range]
        rw [if_neg (by omega)]
        congr 1
        omega

theorem load16_lt (m : View) (o : Nat) : m.load16 o < 2^16 := by
  have h0 := (m o).toNat_lt
  have h1 := (m (o+1)).toNat_lt
  unfold load16
  omega

theorem load32_lt (m : View) (o : Nat) : m.load32 o < 2^32 := by
  have h0 := m.load16_lt o
  have h1 := m.load16_lt (o+2)
  unfold load32
  omega

theorem load64_lt (m : View) (o : Nat) : m.load64 o < 2^64 := by
  have h0 := m.load32_lt o
  have h1 := m.load32_lt (o+4)
  unfold load64
  omega

theorem load32_store32 (m : View) (o v : Nat) : (m.store32 o v).load32 o = v % 2^32 := by
  have h0 : m.store32 o v o = .ofNat v := if_pos rfl
  have h1 : m.store32 o v (o+1) = .ofNat (v / 2^8) := by simp [store32]
  have h2 : m.store32 o v (o+2) = .ofNat (v / 2^16) := by simp [store32]
  have h3 : m.store32 o v (o+2+1) = .ofNat (v / 2^24) := by
    unfold store32
    rw [if_neg (by omega), if_neg (by omega), if_neg (by omega), if_pos (by omega)]
  rw [load32, load16, load16, h0, h1, h2, h3]
  simp only [UInt8.toNat_ofNat']
  omega

theorem load32_congr {m m' : View} {o p : Nat} (h : ∀ i < 4, m (o + i) = m' (p + i)) :
    m.load32 o = m'.load32 p := by
  have h0 : m o = m' p := h 0 (by decide)
  have h1 : m (o+1) = m' (p+1) := h 1 (by decide)
  have h2 : m (o+2) = m' (p+2) := h 2 (by decide)
  have h3 : m (o+2+1) = m' (p+2+1) := h 3 (by decide)
  unfold load32 load16
  rw [h0, h1, h2, h3]

theorem load64_congr {m m' : View} {o p : Nat} (h : ∀ i < 8, m (o + i) = m' (p + i)) :
    m.load64 o = m'.load64 p := by
  have hlow : m.load32 o = m'.load32 p := load32_congr fun i hi => h i (by omega)
  have hhigh : m.load32 (o+4) = m'.load32 (p+4) := load32_congr fun i hi => by
    rw [Nat.add_assoc, Nat.add_assoc]
    exact h (4 + i) (by omega)
  rw [load64, load64, hlow, hhigh]

theorem load32_store32_of_ne (m : View) {o p : Nat} (v : Nat) (h : o + 4 ≤ p ∨ p + 4 ≤ o) :
    (m.store32 o v).load32 p = m.load32 p := by
  apply load32_congr
  intro i hi
  unfold store32
  rw [if_neg (by omega), if_neg (by omega), if_neg (by omega), if_neg (by omega)]

end View

/-- The bytes of a 16-bit and of a 32-bit word, lowest first. -/
def bytes16 (x : Nat) : List UInt8 := [.ofNat x, .ofNat (x / 2^8)]
def bytes32 (x : Nat) : List UInt8 := bytes16 x ++ bytes16 (x / 2^16)

def bswap16 (x : Nat) : Nat := x % 2^8 * 2^8 + x / 2^8 % 2^8
def bswap32 (x : Nat) : Nat := bswap16 (x % 2^16) * 2^16 + bswap16 (x / 2^16)

@[simp] theorem bytes16_length (x : Nat) : (bytes16 x).length = 2 := rfl
@[simp] theorem bytes32_length (x : Nat) : (bytes32 x).length = 4 := rfl

/-- A word stored is the bytes it was loaded from. -/
theorem bytes16_of_load16 (m : View) (o : Nat) : bytes16 (m.load16 o) = m.bytes o 2 := by
  have h0 := (m o).toNat_lt
  have h1 := (m (o + 1)).toNat_lt
  have hlow : UInt8.ofNat (m.load16 o) = m o := by
    rw [← UInt8.toNat_inj, UInt8.toNat_ofNat', View.load16]
    omega
  have hhigh : UInt8.ofNat (m.load16 o / 2^8) = m (o + 1) := by
    rw [← UInt8.toNat_inj, UInt8.toNat_ofNat', View.load16]
    omega
  rw [bytes16, hlow, hhigh]
  rfl

theorem bswap16_bswap16 {x : Nat} (h : x < 2^16) : bswap16 (bswap16 x) = x := by
  have hlow : bswap16 x % 2^8 = x / 2^8 := by
    unfold bswap16
    omega
  have hhigh : bswap16 x / 2^8 = x % 2^8 := by
    unfold bswap16
    omega
  rw [bswap16, hlow, hhigh]
  omega

theorem bswap16_lt (x : Nat) : bswap16 x < 2^16 := by
  unfold bswap16
  omega

end GeckoOS.Lib
