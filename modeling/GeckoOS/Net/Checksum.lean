import GeckoOS.Net.Stack

/-! The Internet checksum. Folding keeps a sum modulo 2^16 - 1, where all ones is
the other zero. -/
namespace GeckoOS.Net
open Lib

/-- The sum of the 16-bit words, of any size. -/
def total : List UInt8 → Nat
  | a :: b :: rest => a.toNat + 2^8 * b.toNat + total rest
  | [a] => a.toNat
  | [] => 0

/-- One pass of the folding loop. -/
def carryRound (sum : Nat) : Nat := sum % 2^16 + sum / 2^16

variable {sum : Nat} {pre post data : List UInt8}

/-- Each byte adds at most half of a full word. -/
theorem total_le (data : List UInt8) : 2 * total data ≤ (2^16 - 1) * data.length := by
  fun_induction total data with
  | case1 a b rest ih =>
    have ha := a.toNat_lt
    have hb := b.toNat_lt
    rw [List.length_cons, List.length_cons]
    omega
  | case2 a =>
    have ha := a.toNat_lt
    rw [List.length_singleton]
    omega
  | case3 => exact Nat.le_refl 0

theorem total_lt (h : data.length < 2^16) : total data < 2^32 := by
  have := total_le data
  omega

theorem total_append (heven : pre.length % 2 = 0) (rest : List UInt8) :
    total (pre ++ rest) = total pre + total rest := by
  fun_induction total pre with
  | case1 a b pre ih =>
    rw [List.length_cons, List.length_cons] at heven
    rw [List.cons_append, List.cons_append, total, ih (by omega)]
    omega
  | case2 a => cases heven
  | case3 => rw [List.nil_append, Nat.zero_add]

theorem total_bytes16 {c : Nat} (hc : c < 2^16) : total (bytes16 c) = c := by
  rw [bytes16, total, total, UInt8.toNat_ofNat', UInt8.toNat_ofNat']
  omega

/-- The accumulator holds the sum if that has 32 bits. -/
theorem wordSum_eq (h : sum + total data < 2^32) : wordSum sum data = sum + total data := by
  fun_induction total data generalizing sum with
  | case1 a b rest ih =>
    have hfirst : add32 sum (a.toNat + 2^8 * b.toNat) = sum + (a.toNat + 2^8 * b.toNat) := add32_eq (by omega)
    rw [wordSum, hfirst, ih (by omega), Nat.add_assoc]
  | case2 a => rw [wordSum, add32_eq h]
  | case3 => rfl

theorem foldCarry_lt (sum : Nat) : foldCarry sum < 2^16 := by
  fun_induction foldCarry sum with
  | case1 sum h => omega
  | case2 sum h ih => exact ih

theorem foldCarry_mod (sum : Nat) : foldCarry sum % (2^16 - 1) = sum % (2^16 - 1) := by
  fun_induction foldCarry sum with
  | case1 => rfl
  | case2 sum h ih =>
    rw [ih]
    omega

theorem foldCarry_pos (h : 0 < sum) : 0 < foldCarry sum := by
  fun_induction foldCarry sum with
  | case1 => exact h
  | case2 sum hcarry ih => exact ih (by omega)

/-- Two passes are enough for 32 bits. -/
theorem foldCarry_eq (h : sum < 2^32) : foldCarry sum = carryRound (carryRound sum) := by
  have hstep : ∀ {x : Nat}, x / 2^16 = 0 → foldCarry x = x := fun hx => by rw [foldCarry, if_pos hx]
  have hround : ∀ {x : Nat}, x / 2^16 ≠ 0 → foldCarry x = foldCarry (carryRound x) := fun hx => by
    rw [foldCarry, if_neg hx, carryRound]
  have hsmall : ∀ {x : Nat}, x / 2^16 = 0 → carryRound x = x := fun hx => by
    unfold carryRound
    omega
  by_cases h₁ : sum / 2^16 = 0
  · rw [hstep h₁, hsmall h₁, hsmall h₁]
  · rw [hround h₁]
    by_cases h₂ : carryRound sum / 2^16 = 0
    · rw [hstep h₂, hsmall h₂]
    · have h₃ : carryRound (carryRound sum) / 2^16 = 0 := by
        unfold carryRound at h₂ ⊢
        omega
      rw [hround h₂, hstep h₃]

theorem checksum_lt (data : List UInt8) : checksum data < 2^16 := by
  unfold checksum
  omega

/-- The sum and its checksum are all ones together. -/
theorem checksum_total (h : total data < 2^32) : (total data + checksum data) % (2^16 - 1) = 0 := by
  have hmod := foldCarry_mod (total data)
  have hlt := foldCarry_lt (total data)
  rw [checksum, wordSum_eq (by omega), Nat.zero_add]
  omega

/-- A checksum is 0 exactly for the multiples of all ones, but not for 0 itself. -/
theorem checksum_eq_zero_iff (h : total data < 2^32) : checksum data = 0 ↔ 0 < total data ∧
    total data % (2^16 - 1) = 0 := by
  have hmod := foldCarry_mod (total data)
  have hlt := foldCarry_lt (total data)
  rw [checksum, wordSum_eq (by omega), Nat.zero_add]
  constructor
  · intro hzero
    have hpos : total data ≠ 0 := by
      intro hnone
      rw [hnone, foldCarry, if_pos (by decide)] at hzero
      cases hzero
    omega
  · rintro ⟨hpos, hdvd⟩
    have := foldCarry_pos hpos
    omega

/-- Over the bytes with their checksum stored the checksum is 0. -/
theorem checksum_stored (heven : pre.length % 2 = 0) (hlen : (pre ++ [0, 0] ++ post).length < 2^16) :
    checksum (pre ++ bytes16 (checksum (pre ++ [0, 0] ++ post)) ++ post) = 0 := by
  have hfits := total_lt hlen
  have hall := checksum_total hfits
  have hcheck := checksum_lt (pre ++ [0, 0] ++ post)
  generalize hc : checksum (pre ++ [0, 0] ++ post) = c at hall hcheck ⊢
  have hfield : (bytes16 c).length % 2 = 0 := by rw [bytes16_length]
  have hzero : total (pre ++ [0, 0] ++ post) = total pre + total post := by
    rw [List.append_assoc, total_append heven, total_append (by rfl)]
    exact congrArg _ (Nat.zero_add _)
  have hstored : total (pre ++ bytes16 c ++ post) = total pre + (c + total post) := by
    rw [List.append_assoc, total_append heven, total_append hfield, total_bytes16 hcheck]
  have hlen' : (pre ++ bytes16 c ++ post).length < 2^16 := by
    rw [List.length_append, List.length_append] at hlen ⊢
    exact hlen
  apply (checksum_eq_zero_iff (total_lt hlen')).mpr
  rw [hstored]
  rw [hzero] at hall
  refine ⟨?_, by omega⟩
  by_contra hnone
  -- a sum of 0 has the checksum 2^16 - 1
  have hsum : total (pre ++ [0, 0] ++ post) = 0 := by omega
  rw [checksum, wordSum_eq (by omega), hsum, foldCarry, if_pos (by decide)] at hc
  omega

/-- The sum of at most 65535 bytes fits into the accumulator, two passes fold it into
16 bits, and over the bytes with their checksum stored the checksum is 0. -/
theorem checksum_verifies (heven : pre.length % 2 = 0) (hlen : (pre ++ [0, 0] ++ post).length < 2^16) :
    (wordSum 0 (pre ++ [0, 0] ++ post) = total (pre ++ [0, 0] ++ post) ∧ total (pre ++ [0, 0] ++ post) < 2^32) ∧
    (foldCarry (total (pre ++ [0, 0] ++ post)) = carryRound (carryRound (total (pre ++ [0, 0] ++ post))) ∧
      foldCarry (total (pre ++ [0, 0] ++ post)) < 2^16) ∧
    checksum (pre ++ bytes16 (checksum (pre ++ [0, 0] ++ post)) ++ post) = 0 := by
  have hfits := total_lt hlen
  have hsum : wordSum 0 (pre ++ [0, 0] ++ post) = total (pre ++ [0, 0] ++ post) := by
    rw [wordSum_eq (by omega), Nat.zero_add]
  exact ⟨⟨hsum, hfits⟩, ⟨foldCarry_eq hfits, foldCarry_lt _⟩, checksum_stored heven hlen⟩

/-- An odd number of bytes. -/
theorem checksum_verifies_odd :
    checksum ([0x45, 0] ++ bytes16 (checksum ([0x45, 0] ++ [0, 0] ++ [0xFF])) ++ [0xFF]) = 0 :=
  (checksum_verifies (by decide) (by decide)).2.2

end GeckoOS.Net
