import GeckoOS.Mem.Kmalloc
import Mathlib.Data.List.Pairwise

/-! Block headers in memory, and the heap as a row of adjacent blocks. -/
namespace GeckoOS.Mem.Kmalloc
open Lib

namespace Cells
variable {m m' : Cells} {b c n v lo hi : Nat}

/-- `m'` differs from `m` only on the cells in `[lo, hi)`. -/
def OnlyTouches (m m' : Cells) (lo hi : Nat) : Prop := ∀ x, x < lo ∨ hi ≤ x → m' x = m x

theorem OnlyTouches.size (h : OnlyTouches m m' lo hi) (hb : b + 16 ≤ lo ∨ hi ≤ b) : m'.size b = m.size b := by
  rw [Cells.size, Cells.size, h b (by omega)]
theorem OnlyTouches.free (h : OnlyTouches m m' lo hi) (hb : b + 16 ≤ lo ∨ hi ≤ b) : m'.free b = m.free b := by
  rw [Cells.free, Cells.free, h (b+4) (by omega)]
theorem OnlyTouches.next (h : OnlyTouches m m' lo hi) (hb : b + 16 ≤ lo ∨ hi ≤ b) : m'.next b = m.next b := by
  rw [Cells.next, Cells.next, h (b+8) (by omega), h (b+12) (by omega)]

theorem OnlyTouches.trans {m'' : Cells} (h : OnlyTouches m m' lo hi) (h' : OnlyTouches m' m'' lo hi) :
    OnlyTouches m m'' lo hi := fun x hx => (h' x hx).trans (h x hx)

theorem setSize_touches (m : Cells) (v : Nat) (hlo : lo ≤ b) (hhi : b + 16 ≤ hi) :
    OnlyTouches m (m.setSize b v) lo hi :=
  fun x hx => Function.update_of_ne (by omega) _ _
theorem setFree_touches (m : Cells) (v : Nat) (hlo : lo ≤ b) (hhi : b + 16 ≤ hi) :
    OnlyTouches m (m.setFree b v) lo hi :=
  fun x hx => Function.update_of_ne (by omega) _ _
theorem setNext_touches (m : Cells) (v : Nat) (hlo : lo ≤ b) (hhi : b + 16 ≤ hi) :
    OnlyTouches m (m.setNext b v) lo hi := by
  intro x hx
  rw [setNext, Function.update_of_ne (by omega), Function.update_of_ne (by omega)]

@[simp] theorem size_setFree (m : Cells) (b v : Nat) : (m.setFree b v).size b = m.size b := by
  simp [size, setFree]
@[simp] theorem size_setNext (m : Cells) (b v : Nat) : (m.setNext b v).size b = m.size b := by
  simp [size, setNext]
@[simp] theorem free_setSize (m : Cells) (b v : Nat) : (m.setSize b v).free b = m.free b := by
  simp [free, setSize]
@[simp] theorem free_setNext (m : Cells) (b v : Nat) : (m.setNext b v).free b = m.free b := by
  simp [free, setNext]
@[simp] theorem next_setSize (m : Cells) (b v : Nat) : (m.setSize b v).next b = m.next b := by
  simp [next, setSize]
@[simp] theorem next_setFree (m : Cells) (b v : Nat) : (m.setFree b v).next b = m.next b := by
  simp [next, setFree]

theorem size_setSize (hv : v < 2^31) (m : Cells) (b : Nat) : (m.setSize b v).size b = v := by
  have he : (BitVec.ofNat 32 v).toInt = v := int32_eq hv
  rw [size, setSize, Function.update_self, he, u64_natCast (by omega)]
@[simp] theorem free_setFree_zero (m : Cells) (b : Nat) : (m.setFree b 0).free b = false := by
  simp [free, setFree]
@[simp] theorem free_setFree_one (m : Cells) (b : Nat) : (m.setFree b 1).free b = true := by
  simp [free, setFree]
theorem next_setNext (hv : v < 2^64) (m : Cells) (b : Nat) : (m.setNext b v).next b = v := by
  simp only [next, setNext, Function.update_self, BitVec.toNat_ofNat]
  rw [Function.update_of_ne (by omega), Function.update_self, BitVec.toNat_ofNat]
  omega

end Cells

/-- From `a` the blocks `bs` lie side by side, each a header and its 8-aligned
payload, and end at `e`. -/
def Tiles (m : Cells) : Nat → List Nat → Nat → Prop
  | a, [], e => a = e
  | a, b :: bs, e => b = a ∧ 8 ∣ m.size b ∧ Tiles m (a + 16 + m.size b) bs e

namespace Tiles
variable {m m' : Cells} {a b e : Nat} {bs bs' : List Nat}

theorem append_iff : Tiles m a (bs ++ bs') e ↔ ∃ x, Tiles m a bs x ∧ Tiles m x bs' e := by
  induction bs generalizing a with
  | nil => simp [Tiles]
  | cons b bs ih =>
    simp only [List.cons_append, Tiles, ih]
    constructor
    · rintro ⟨hb, hd, x, hx, he⟩
      exact ⟨x, ⟨hb, hd, hx⟩, he⟩
    · rintro ⟨x, ⟨hb, hd, hx⟩, he⟩
      exact ⟨hb, hd, x, hx, he⟩

theorem le (h : Tiles m a bs e) : a ≤ e := by
  induction bs generalizing a with
  | nil => exact Nat.le_of_eq h
  | cons b bs ih =>
    obtain ⟨_, _, h⟩ := h
    have := ih h
    omega

theorem bounds (h : Tiles m a bs e) (hb : b ∈ bs) : a ≤ b ∧ b + 16 + m.size b ≤ e := by
  induction bs generalizing a with
  | nil => cases hb
  | cons c bs ih =>
    obtain ⟨rfl, _, h⟩ := h
    rcases List.mem_cons.mp hb with rfl | hb
    · exact ⟨Nat.le_refl _, h.le⟩
    · have := ih h hb
      omega

theorem aligned (h : Tiles m a bs e) (ha : 8 ∣ a) : 8 ∣ e ∧ ∀ b ∈ bs, 8 ∣ b := by
  induction bs generalizing a with
  | nil => exact ⟨h ▸ ha, by simp⟩
  | cons b bs ih =>
    obtain ⟨rfl, hd, h⟩ := h
    obtain ⟨he, hb⟩ := ih h (by omega)
    exact ⟨he, by simpa using ⟨ha, hb⟩⟩

theorem congr (h : Tiles m a bs e) (hs : ∀ b ∈ bs, m'.size b = m.size b) : Tiles m' a bs e := by
  induction bs generalizing a with
  | nil => exact h
  | cons b bs ih =>
    obtain ⟨rfl, hd, h⟩ := h
    have hb := hs b (by simp)
    exact ⟨rfl, hb ▸ hd, hb ▸ ih h (fun c hc => hs c (by simp [hc]))⟩

/-- A block cut in two, with a header for the rest. -/
theorem cut {l₁ l₂ : List Nat} {n : Nat} (h : Tiles m a (l₁ ++ b :: l₂) e)
    (hsame : ∀ c ∈ l₁ ++ l₂, m'.size c = m.size c)
    (hn : 8 ∣ n) (hlt : n + 16 < m.size b) (hb : m'.size b = n)
    (hrest : m'.size (b + 16 + n) = m.size b - n - 16) :
    Tiles m' a (l₁ ++ b :: (b + 16 + n) :: l₂) e := by
  obtain ⟨x, h₁, rfl, hd, h₂⟩ := append_iff.mp h
  have hend : b + 16 + n + 16 + (m.size b - n - 16) = b + 16 + m.size b := by omega
  refine append_iff.mpr ⟨b, h₁.congr fun c hc =>
    hsame c (List.mem_append_left _ hc), rfl, hb.symm ▸ hn, ?_, ?_, ?_⟩
  · rw [hb]
  · rw [hrest]
    omega
  · rw [hrest, hb, hend]
    exact h₂.congr fun c hc => hsame c (List.mem_append_right _ hc)

theorem pairwise (h : Tiles m a bs e) : bs.Pairwise fun b c => b + 16 + m.size b ≤ c := by
  induction bs generalizing a with
  | nil => exact .nil
  | cons b bs ih =>
    obtain ⟨rfl, _, h⟩ := h
    exact .cons (fun c hc => (h.bounds hc).1) (ih h)

theorem nodup (h : Tiles m a bs e) : bs.Nodup :=
  h.pairwise.imp (fun {b c} hbc => by intro he; omega)

/-- Distinct blocks do not meet. -/
theorem apart (h : Tiles m a bs e) (hb : b ∈ bs) {c : Nat} (hc : c ∈ bs) (hne : b ≠ c) :
    b + 16 + m.size b ≤ c ∨ c + 16 + m.size c ≤ b := by
  have hp := h.pairwise
  induction bs generalizing a with
  | nil => cases hb
  | cons x bs ih =>
    obtain ⟨rfl, _, h⟩ := h
    have hx := (List.pairwise_cons.mp hp).1
    rcases List.mem_cons.mp hb with rfl | hb'
    · rcases List.mem_cons.mp hc with rfl | hc'
      · exact absurd rfl hne
      · exact .inl (hx c hc')
    · rcases List.mem_cons.mp hc with rfl | hc'
      · exact .inr (hx b hb')
      · exact ih h hb' hc' (List.pairwise_cons.mp hp).2

end Tiles
end GeckoOS.Mem.Kmalloc
