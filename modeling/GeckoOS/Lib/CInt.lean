import Mathlib.Algebra.Group.Int.Defs
import Mathlib.Algebra.Group.Nat.Defs
import Mathlib.Tactic.Common

/-! Fixed-width C arithmetic on naturals. Values are the unsigned readings of
the machine words; each operation reduces its result to the width. -/
namespace GeckoOS.Lib

@[irreducible] def add16 (a b : Nat) : Nat := (a + b) % 2^16
@[irreducible] def sub16 (a b : Nat) : Nat := (a + (2^16 - b % 2^16)) % 2^16
@[irreducible] def add32 (a b : Nat) : Nat := (a + b) % 2^32
@[irreducible] def sub32 (a b : Nat) : Nat := (a + (2^32 - b % 2^32)) % 2^32
@[irreducible] def mul32 (a b : Nat) : Nat := (a * b) % 2^32
@[irreducible] def add64 (a b : Nat) : Nat := (a + b) % 2^64
@[irreducible] def sub64 (a b : Nat) : Nat := (a + (2^64 - b % 2^64)) % 2^64

/-- `(int32_t)n`, and the conversions `(uint32_t)z` and `(uint64_t)z` of a signed value. -/
def int32 (n : Nat) : Int := (BitVec.ofNat 32 n).toInt
def u32 (z : Int) : Nat := (z % 2^32).toNat
def u64 (z : Int) : Nat := (z % 2^64).toNat

/-- A result of signed 32-bit arithmetic, wrapped around. -/
def wrap32 (z : Int) : Int := z.bmod (2^32)

variable {a b n : Nat}

theorem add32_eq (h : a + b < 2^32) : add32 a b = a + b := by
  unfold add32; exact Nat.mod_eq_of_lt h
theorem mul32_eq (h : a * b < 2^32) : mul32 a b = a * b := by
  unfold mul32; exact Nat.mod_eq_of_lt h
theorem add64_eq (h : a + b < 2^64) : add64 a b = a + b := by
  unfold add64; exact Nat.mod_eq_of_lt h

theorem sub16_eq (ha : a < 2^16) (h : b ≤ a) : sub16 a b = a - b := by
  unfold sub16; omega
theorem sub32_eq (ha : a < 2^32) (h : b ≤ a) : sub32 a b = a - b := by
  unfold sub32; omega
theorem sub64_eq (ha : a < 2^64) (h : b ≤ a) : sub64 a b = a - b := by
  unfold sub64; omega

theorem int32_eq (h : n < 2^31) : int32 n = n := by
  rw [int32, BitVec.toInt_eq_toNat_of_lt] <;> simp <;> omega
theorem u32_natCast (h : n < 2^32) : u32 n = n := by
  unfold u32; omega
theorem u64_natCast (h : n < 2^64) : u64 n = n := by
  unfold u64; omega

theorem wrap32_eq {z : Int} (h : -2^31 ≤ z ∧ z < 2^31) : wrap32 z = z := by
  unfold wrap32
  exact Int.bmod_eq_of_le (by omega) (by omega)
theorem wrap32_bounds (z : Int) : -2^31 ≤ wrap32 z ∧ wrap32 z < 2^31 := by
  have hlo : -(((2^32 : Nat) : Int) / 2) ≤ wrap32 z := Int.le_bmod (by decide)
  have hhi : wrap32 z < (((2^32 : Nat) : Int) + 1) / 2 := Int.bmod_lt (by decide)
  omega

end GeckoOS.Lib
