import GeckoOS.Mem.PhysicalMem
import Mathlib.Data.Nat.Count
import Mathlib.Data.Finset.Card
import Mathlib.Tactic.Ring

/-! What one operation of the block allocator does to the bitmap read as a set
of block numbers, and to the number of its set bits. -/
namespace GeckoOS.Mem.PhysicalMem.State
open Lib
variable {s : State} {b c n : Nat}

private theorem and_bit_ne_zero (w : BitVec 32) {j : Nat} (hj : j < 32) :
    (w &&& (1#32 <<< j) != 0#32) = w.getLsbD j := by
  cases hw : w.getLsbD j with
  | true =>
    rw [bne_iff_ne]
    intro he
    have hbit := congrArg (fun v => BitVec.getLsbD v j) he
    simp only [BitVec.getLsbD_and, hw, BitVec.getLsbD_shiftLeft, hj, BitVec.getLsbD_zero] at hbit
    simp at hbit
  | false =>
    rw [bne_eq_false_iff_eq]
    apply BitVec.eq_of_getLsbD_eq
    intro k hk
    simp only [BitVec.getLsbD_and, BitVec.getLsbD_shiftLeft, BitVec.getLsbD_one, BitVec.getLsbD_zero]
    by_cases hkj : k = j
    · subst hkj; simp [hw]
    · have : ¬ (k - j = 0 ∧ ¬ k < j) := by omega
      simp only [Bool.and_eq_false_iff, decide_eq_false_iff_not]
      grind

theorem testBlock_eq (s : State) (b : Nat) :
    s.testBlock b = (s.memoryMap (b / 32)).getLsbD (b % 32) :=
  and_bit_ne_zero _ (Nat.mod_lt _ (by decide))

private theorem testBlock_setWord (s : State) (i : Nat) (w : BitVec 32) (c : Nat) :
    (s.setWord i w).testBlock c = if c / 32 = i then w.getLsbD (c % 32) else s.testBlock c := by
  by_cases h : c / 32 = i
  · subst h; simp [testBlock_eq, setWord]
  · simp [testBlock_eq, setWord, h]

theorem testBlock_setBlock (hb : b < s.maxBlocks) (c : Nat) :
    (s.setBlock b).testBlock c = (s.testBlock c || decide (c = b)) := by
  rw [setBlock, if_pos hb, testBlock_setWord]
  split
  · next h =>
    have hc : c % 32 < 32 := Nat.mod_lt _ (by decide)
    have he : c = b ↔ c % 32 = b % 32 := by omega
    rw [testBlock_eq, h]
    simp only [BitVec.getLsbD_or, BitVec.getLsbD_shiftLeft, BitVec.getLsbD_one]
    grind
  · next h =>
    have hne : c ≠ b := by rintro rfl; exact h rfl
    simp [hne]

theorem testBlock_unsetBlock (hb : b < s.maxBlocks) (c : Nat) :
    (s.unsetBlock b).testBlock c = (s.testBlock c && !decide (c = b)) := by
  rw [unsetBlock, if_pos hb, testBlock_setWord]
  split
  · next h =>
    have hc : c % 32 < 32 := Nat.mod_lt _ (by decide)
    have he : c = b ↔ c % 32 = b % 32 := by omega
    rw [testBlock_eq, h]
    simp only [BitVec.getLsbD_and, BitVec.getLsbD_not, BitVec.getLsbD_shiftLeft, BitVec.getLsbD_one]
    grind
  · next h =>
    have hne : c ≠ b := by rintro rfl; exact h rfl
    simp [hne]

@[simp] theorem setBlock_maxBlocks (s : State) (b : Nat) : (s.setBlock b).maxBlocks = s.maxBlocks := by
  unfold setBlock; split <;> rfl
@[simp] theorem setBlock_usedBlocks (s : State) (b : Nat) : (s.setBlock b).usedBlocks = s.usedBlocks := by
  unfold setBlock; split <;> rfl
@[simp] theorem unsetBlock_maxBlocks (s : State) (b : Nat) : (s.unsetBlock b).maxBlocks = s.maxBlocks := by
  unfold unsetBlock; split <;> rfl
@[simp] theorem unsetBlock_usedBlocks (s : State) (b : Nat) : (s.unsetBlock b).usedBlocks = s.usedBlocks := by
  unfold unsetBlock; split <;> rfl

-- Proved by cases on purpose: as definitional equations the kernel would compare
-- the counters, and unfold their arithmetic, whenever simp rewrites with them.
@[simp] theorem withUsed_maxBlocks (s : State) (u : Nat) : (s.withUsed u).maxBlocks = s.maxBlocks := by
  cases s; rfl
@[simp] theorem withUsed_usedBlocks (s : State) (u : Nat) : (s.withUsed u).usedBlocks = u := by
  cases s; rfl
@[simp] theorem testBlock_withUsed (s : State) (u c : Nat) : (s.withUsed u).testBlock c = s.testBlock c := by
  cases s; rfl

/-- The number of set bits among the bits 0..max_blocks-1. -/
def setCount (s : State) : Nat := Nat.count (fun b => s.testBlock b = true) s.maxBlocks

@[simp] theorem setCount_withUsed (s : State) (u : Nat) : (s.withUsed u).setCount = s.setCount := by
  cases s; rfl

theorem setCount_le (s : State) : s.setCount ≤ s.maxBlocks := Nat.count_le _

private theorem count_insert {p q : Nat → Prop} [DecidablePred p] [DecidablePred q] {m : Nat}
    (hb : b < m) (hp : ¬ p b) (hq : ∀ c, q c ↔ p c ∨ c = b) :
    Nat.count q m = Nat.count p m + 1 := by
  rw [Nat.count_eq_card_filter_range, Nat.count_eq_card_filter_range]
  have he : (Finset.range m).filter q = insert b ((Finset.range m).filter p) := by
    ext c
    simp only [Finset.mem_filter, Finset.mem_range, Finset.mem_insert, hq]
    constructor
    · rintro ⟨hc, h | rfl⟩
      · exact .inr ⟨hc, h⟩
      · exact .inl rfl
    · rintro (rfl | ⟨hc, h⟩)
      · exact ⟨hb, .inr rfl⟩
      · exact ⟨hc, .inl h⟩
  rw [he, Finset.card_insert_of_notMem (by simp [hp])]

theorem setCount_setBlock (hb : b < s.maxBlocks) (hc : s.testBlock b = false) :
    (s.setBlock b).setCount = s.setCount + 1 := by
  simp only [setCount, setBlock_maxBlocks]
  apply count_insert hb (by simp [hc])
  intro c
  simp [testBlock_setBlock hb]

theorem setCount_unsetBlock (hb : b < s.maxBlocks) (hc : s.testBlock b = true) :
    (s.unsetBlock b).setCount + 1 = s.setCount := by
  simp only [setCount, unsetBlock_maxBlocks]
  symm
  apply count_insert hb (by simp [testBlock_unsetBlock hb])
  intro c
  rw [testBlock_unsetBlock hb]
  by_cases h : c = b
  · subst h; simp [hc]
  · simp [h]

/-- A run of `n` clear bits inside the map. -/
def FreeRun (s : State) (n b : Nat) : Prop := ∀ k < n, b + k < s.maxBlocks ∧ s.testBlock (b + k) = false

theorem freeRun_succ : s.FreeRun (n+1) b ↔ (b < s.maxBlocks ∧ s.testBlock b = false) ∧ s.FreeRun n (b+1) := by
  constructor
  · intro h
    refine ⟨by simpa using h 0 (by omega), fun k hk => ?_⟩
    have := h (k+1) (by omega)
    rwa [show b + (k+1) = b + 1 + k by omega] at this
  · rintro ⟨h0, h⟩ k hk
    cases k with
    | zero => simpa using h0
    | succ k =>
      have := h k (by omega)
      rwa [show b + 1 + k = b + (k+1) by omega] at this

theorem freeCount_eq_iff (s : State) (b n : Nat) : s.freeCount b n = n ↔ s.FreeRun n b := by
  induction n generalizing b with
  | zero => simp [freeCount, FreeRun]
  | succ n ih =>
    rw [freeCount, freeRun_succ]
    by_cases hm : s.maxBlocks ≤ b
    · simp [hm]
    · by_cases ht : s.testBlock b = true
      · simp [hm, ht]
      · simp [hm, ht, ih, Nat.lt_of_not_le hm]

/-! Runs of bits: the loops of `allocate_blocks` and `free_blocks`. -/

@[simp] theorem setRun_maxBlocks (s : State) (b n : Nat) : (s.setRun b n).maxBlocks = s.maxBlocks := by
  induction n generalizing s b with
  | zero => rfl
  | succ n ih => rw [setRun, ih, setBlock_maxBlocks]
@[simp] theorem unsetRun_maxBlocks (s : State) (b n : Nat) : (s.unsetRun b n).maxBlocks = s.maxBlocks := by
  induction n generalizing s b with
  | zero => rfl
  | succ n ih => rw [unsetRun, ih, unsetBlock_maxBlocks]

theorem testBlock_setRun (hm : s.maxBlocks ≤ 2^32) (hb : b + n ≤ s.maxBlocks) (c : Nat) :
    (s.setRun b n).testBlock c = (s.testBlock c || decide (b ≤ c ∧ c < b + n)) := by
  induction n generalizing s b with
  | zero => simp [setRun]
  | succ n ih =>
    rw [setRun, Nat.mod_eq_of_lt (by omega), ih (by simpa using hm) (by simp; omega),
      testBlock_setBlock (by omega), Bool.or_assoc]
    congr 1
    grind

theorem testBlock_unsetRun (hm : s.maxBlocks ≤ 2^32) (hb : b + n ≤ s.maxBlocks) (c : Nat) :
    (s.unsetRun b n).testBlock c = (s.testBlock c && !decide (b ≤ c ∧ c < b + n)) := by
  induction n generalizing s b with
  | zero => simp [unsetRun]; omega
  | succ n ih =>
    rw [unsetRun, Nat.mod_eq_of_lt (by omega), ih (by simpa using hm) (by simp; omega),
      testBlock_unsetBlock (by omega), Bool.and_assoc]
    congr 1
    grind

theorem setCount_setRun (hm : s.maxBlocks ≤ 2^32) (hf : s.FreeRun n b) :
    (s.setRun b n).setCount = s.setCount + n := by
  induction n generalizing s b with
  | zero => rfl
  | succ n ih =>
    obtain ⟨⟨hb, hc⟩, hr⟩ := freeRun_succ.mp hf
    have hr' : (s.setBlock b).FreeRun n (b+1) := by
      intro k hk
      obtain ⟨h1, h2⟩ := hr k hk
      refine ⟨by simpa using h1, ?_⟩
      rw [testBlock_setBlock hb, h2]
      simp; omega
    rw [setRun, Nat.mod_eq_of_lt (by omega), ih (by simpa using hm) hr', setCount_setBlock hb hc]
    ring

theorem setCount_unsetRun (hm : s.maxBlocks ≤ 2^32) (hb : b + n ≤ s.maxBlocks)
    (ht : ∀ k < n, s.testBlock (b + k) = true) :
    (s.unsetRun b n).setCount + n = s.setCount := by
  induction n generalizing s b with
  | zero => rfl
  | succ n ih =>
    have h0 : s.testBlock b = true := by simpa using ht 0 (by omega)
    have hr : ∀ k < n, (s.unsetBlock b).testBlock (b + 1 + k) = true := by
      intro k hk
      rw [testBlock_unsetBlock (by omega), show b + 1 + k = b + (k+1) by omega, ht (k+1) (by omega)]
      simp
    rw [unsetRun, Nat.mod_eq_of_lt (by omega), ← setCount_unsetBlock (by omega) h0,
      ← ih (by simpa using hm) (by simp; omega) hr]
    ring

/-! The loops of `reserve_region` and `free_region`. They stop at max_blocks. -/

@[simp] theorem reserveLoop_maxBlocks (s : State) (b n : Nat) :
    (s.reserveLoop b n).maxBlocks = s.maxBlocks := by
  induction n generalizing s b with
  | zero => rfl
  | succ n ih =>
    rw [reserveLoop]
    split
    · split
      · exact ih _ _
      · rw [ih, withUsed_maxBlocks, setBlock_maxBlocks]
    · rfl

/-- `set_block` takes a 32-bit number: the blocks from 2^32 on among the `n` from `b` on are set already. -/
def HighSetIn (s : State) (b n : Nat) : Prop :=
  ∀ c, b ≤ c → c < b + n → c < s.maxBlocks → 2^32 ≤ c → s.testBlock c = true

private theorem HighSetIn.next (hs : s.HighSetIn b (n+1)) : s.HighSetIn (b+1) n :=
  fun c hlo hhi => hs c (by omega) (by omega)

/-- A block that is clear is one that `set_block` sets. -/
private theorem HighSetIn.low (hs : s.HighSetIn b (n+1)) (hb : b < s.maxBlocks) (ht : ¬ s.testBlock b = true) :
    b % 2^32 = b := by
  apply Nat.mod_eq_of_lt
  by_contra h
  exact ht (hs b (Nat.le_refl b) (by omega) hb (by omega))

private theorem HighSetIn.set (hs : s.HighSetIn b (n+1)) (hb : b < s.maxBlocks) (u : Nat) :
    ((s.setBlock b).withUsed u).HighSetIn (b+1) n := by
  intro c hlo hhi hc hhigh
  rw [withUsed_maxBlocks, setBlock_maxBlocks] at hc
  rw [testBlock_withUsed, testBlock_setBlock hb, hs.next c hlo hhi hc hhigh, Bool.true_or]

theorem testBlock_reserveLoop_of_high (hs : s.HighSetIn b n) (c : Nat) :
    (s.reserveLoop b n).testBlock c =
      (s.testBlock c || decide (b ≤ c ∧ c < b + n ∧ c < s.maxBlocks)) := by
  induction n generalizing s b with
  | zero => simp [reserveLoop]; omega
  | succ n ih =>
    rw [reserveLoop]
    split
    · next hb =>
      split
      · next ht =>
        rw [ih hs.next]
        grind
      · next ht =>
        rw [hs.low hb ht, ih (hs.set hb _), testBlock_withUsed, testBlock_setBlock hb, withUsed_maxBlocks,
          setBlock_maxBlocks]
        grind
    · next hb => grind

/-- The counter grows with the set bits. -/
theorem reserveLoop_counts (hs : s.HighSetIn b n) (hu : s.usedBlocks < 2^64) :
    ∃ k, (s.reserveLoop b n).setCount = s.setCount + k ∧
    (s.reserveLoop b n).usedBlocks = add64 s.usedBlocks k := by
  induction n generalizing s b with
  | zero =>
    refine ⟨0, rfl, ?_⟩
    rw [add64_eq (by omega)]
    rfl
  | succ n ih =>
    rw [reserveLoop]
    split
    · next hb =>
      split
      · exact ih hs.next hu
      · next ht =>
        rw [hs.low hb ht]
        have hlt : add64 s.usedBlocks 1 < 2^64 := by unfold add64; exact Nat.mod_lt _ (by decide)
        obtain ⟨k, hset, hused⟩ := ih (hs.set hb (add64 s.usedBlocks 1)) (by simpa using hlt)
        rw [setCount_withUsed, setCount_setBlock hb (by simpa using ht)] at hset
        refine ⟨k + 1, by omega, ?_⟩
        rw [hused, withUsed_usedBlocks]
        unfold add64
        omega
    · refine ⟨0, rfl, ?_⟩
      rw [add64_eq (by omega)]
      rfl

theorem testBlock_reserveLoop (hm : s.maxBlocks ≤ 2^32) (b n c : Nat) :
    (s.reserveLoop b n).testBlock c =
      (s.testBlock c || decide (b ≤ c ∧ c < b + n ∧ c < s.maxBlocks)) :=
  testBlock_reserveLoop_of_high (fun c _ _ hc hhigh => by omega) c

/-- Blocks from 2^32 on stay as they are. -/
theorem testBlock_reserveLoop_high (s : State) (b n : Nat) {c : Nat} (hc : 2^32 ≤ c) :
    (s.reserveLoop b n).testBlock c = s.testBlock c := by
  induction n generalizing s b with
  | zero => rfl
  | succ n ih =>
    rw [reserveLoop]
    split
    · next hb =>
      have hmod := Nat.mod_le b (2^32)
      have hlow : b % 2^32 < 2^32 := Nat.mod_lt _ (by decide)
      split
      · exact ih _ _
      · rw [ih, testBlock_withUsed, testBlock_setBlock (by omega), decide_eq_false (by omega), Bool.or_false]
    · rfl

theorem reserveLoop_counted (hm : s.maxBlocks ≤ 2^32) (hu : s.usedBlocks = s.setCount) (b n : Nat) :
    (s.reserveLoop b n).usedBlocks = (s.reserveLoop b n).setCount := by
  induction n generalizing s b with
  | zero => exact hu
  | succ n ih =>
    rw [reserveLoop]
    split
    · next hb =>
      split
      · exact ih hm hu _
      · next ht =>
        apply ih (by simpa using hm)
        have hle := s.setCount_le
        rw [Nat.mod_eq_of_lt (by omega), setCount_withUsed, withUsed_usedBlocks,
          setCount_setBlock hb (by simpa using ht), hu, add64_eq (by omega)]
    · exact hu

@[simp] theorem freeLoop_maxBlocks (s : State) (b n : Nat) :
    (s.freeLoop b n).maxBlocks = s.maxBlocks := by
  induction n generalizing s b with
  | zero => rfl
  | succ n ih =>
    rw [freeLoop]
    split
    · split
      · rw [ih, withUsed_maxBlocks, unsetBlock_maxBlocks]
      · exact ih _ _
    · rfl

theorem testBlock_freeLoop (hm : s.maxBlocks ≤ 2^32) (b n c : Nat) :
    (s.freeLoop b n).testBlock c =
      (s.testBlock c && !decide (b ≤ c ∧ c < b + n ∧ c < s.maxBlocks)) := by
  induction n generalizing s b with
  | zero => simp [freeLoop]; omega
  | succ n ih =>
    rw [freeLoop]
    split
    · next hb =>
      split
      · next ht =>
        rw [ih (by simpa using hm), testBlock_withUsed, Nat.mod_eq_of_lt (by omega),
          testBlock_unsetBlock hb, withUsed_maxBlocks, unsetBlock_maxBlocks]
        grind
      · next ht =>
        rw [ih hm]
        grind
    · next hb => grind

/-! The search of `find_first_free_blocks`. -/

/-- Lowest run of `n` clear bits among those that start in a full 32-bit word. -/
structure LowestRun (s : State) (n b : Nat) : Prop where
  fullWord : b < s.maxBlocks / 32 * 32
  free : s.FreeRun n b
  lowest : ∀ c < b, ¬ s.FreeRun n c

private theorem findSome?_range {α : Type} (f : Nat → Option α) (n : Nat) (x : α) :
    (List.range n).findSome? f = some x → ∃ i < n, f i = some x ∧ ∀ j < i, f j = none := by
  induction n with
  | zero => simp
  | succ n ih =>
    rw [List.range_succ, List.findSome?_append, Option.or_eq_some_iff]
    rintro (h | ⟨hn, h⟩)
    · obtain ⟨i, hi, hx, hl⟩ := ih h
      exact ⟨i, by omega, hx, hl⟩
    · rw [List.findSome?_eq_none_iff] at hn
      exact ⟨n, by omega, by simpa using h, fun j hj => hn j (List.mem_range.mpr hj)⟩

private theorem findInWord_pred (s : State) (hn : n ≠ 0) (b : Nat) :
    (!s.testBlock b && s.freeCount b n == n) = true ↔ s.FreeRun n b := by
  simp only [Bool.and_eq_true, beq_iff_eq, freeCount_eq_iff, Bool.not_eq_true']
  constructor
  · exact And.right
  · intro h
    exact ⟨by simpa using (h 0 (by omega)).2, h⟩

private theorem findInWord_none (s : State) (hn : n ≠ 0) {i : Nat} (h : s.findInWord n i = none)
    {c : Nat} (hc : c / 32 = i) : ¬ s.FreeRun n c := by
  rw [findInWord, List.find?_eq_none] at h
  have := h (c % 32) (List.mem_range.mpr (Nat.mod_lt _ (by decide)))
  rwa [findInWord_pred s hn, show i*32 + c % 32 = c by omega] at this

private theorem full_word_no_run (hn : n ≠ 0) {i : Nat} (h : s.memoryMap i = 0xFFFFFFFF#32)
    {c : Nat} (hc : c / 32 = i) : ¬ s.FreeRun n c := by
  intro hf
  have hz := (hf 0 (by omega)).2
  rw [Nat.add_zero, testBlock_eq, hc, h] at hz
  have hall : ∀ j < 32, (0xFFFFFFFF#32).getLsbD j = true := by decide
  rw [hall _ (Nat.mod_lt _ (by decide))] at hz
  cases hz

/-- The search gives the number of the lowest run cut to 32 bits, or -1 if no run
starts in a full word. -/
theorem findFirstFreeBlocks_cases (s : State) (hn : n ≠ 0) :
    (∃ b, s.LowestRun n b ∧ s.findFirstFreeBlocks n = int32 b) ∨
      ((∀ b < s.maxBlocks / 32 * 32, ¬ s.FreeRun n b) ∧ s.findFirstFreeBlocks n = -1) := by
  unfold findFirstFreeBlocks
  rw [if_neg hn]
  split
  · next start hs =>
    obtain ⟨i, hi, hx, hl⟩ := findSome?_range _ _ _ hs
    split at hx
    · obtain ⟨j, hj, rfl⟩ := Option.map_eq_some_iff.mp hx
      rw [findInWord, List.find?_range_eq_some] at hj
      obtain ⟨hp, hj32, hjl⟩ := hj
      rw [List.mem_range] at hj32
      refine .inl ⟨i*32+j, ⟨by omega, (findInWord_pred s hn _).mp hp, ?_⟩, rfl⟩
      intro c hc hf
      by_cases hci : c / 32 = i
      · have := hjl (c % 32) (by omega)
        rw [show i*32 + c % 32 = c by omega, Bool.not_eq_true', ← Bool.not_eq_true,
          findInWord_pred s hn] at this
        exact this hf
      · have := hl (c / 32) (by omega)
        split at this
        · exact findInWord_none s hn (Option.map_eq_none_iff.mp this) rfl hf
        · next hw => exact full_word_no_run hn (not_not.mp hw) rfl hf
    · cases hx
  · next hs =>
    refine .inr ⟨fun b hb hf => ?_, rfl⟩
    have hword := List.findSome?_eq_none_iff.mp hs (b / 32) (List.mem_range.mpr (by omega))
    split at hword
    · exact findInWord_none s hn (Option.map_eq_none_iff.mp hword) rfl hf
    · next hfull => exact full_word_no_run hn (not_not.mp hfull) rfl hf

theorem findFirstFreeBlocks_spec (hm : s.maxBlocks < 2^31) (n : Nat) :
    s.findFirstFreeBlocks n = -1 ∨
      ∃ b : Nat, s.findFirstFreeBlocks n = b ∧ s.LowestRun n b := by
  by_cases hn : n = 0
  · exact .inl (if_pos hn)
  · rcases s.findFirstFreeBlocks_cases hn with ⟨b, hb, he⟩ | ⟨-, he⟩
    · have := hb.fullWord
      rw [int32_eq (by omega)] at he
      exact .inr ⟨b, he, hb⟩
    · exact .inl he

/-- A run that starts in a full word is found, or a lower one. -/
theorem findFirstFreeBlocks_found (hm : s.maxBlocks < 2^31) (hn : n ≠ 0) (hb : b < s.maxBlocks / 32 * 32)
    (hf : s.FreeRun n b) : s.findFirstFreeBlocks n ≠ -1 := by
  rcases s.findFirstFreeBlocks_cases hn with ⟨c, hc, he⟩ | ⟨hnone, -⟩
  · have := hc.fullWord
    rw [he, int32_eq (by omega)]
    omega
  · exact absurd hf (hnone b hb)

end GeckoOS.Mem.PhysicalMem.State
