import Mathlib.Data.List.Nodup
import Mathlib.Data.Nat.ModEq
import Mathlib.Tactic.Common

/-! The slots of a ring of `n` places that are in use, from the first one on. -/
namespace GeckoOS.Lib

def slots (n start count : Nat) : List Nat := (List.range count).map fun j => (start + j) % n

variable {n start count : Nat}

@[simp] theorem slots_zero (n start : Nat) : slots n start 0 = [] := rfl

/-- One more at the end. -/
theorem slots_succ (n start count : Nat) : slots n start (count + 1) =
    slots n start count ++ [(start + count) % n] := by
  simp [slots, List.range_succ]

/-- One less at the front. -/
theorem slots_cons (n start count : Nat) : slots n start (count + 1) =
    start % n :: slots n ((start + 1) % n) count := by
  simp only [slots, List.range_succ_eq_map, List.map_cons, List.map_map, Nat.add_zero,
    List.cons.injEq, true_and]
  refine List.map_congr_left fun j _ => ?_
  simp only [Function.comp_apply, Nat.succ_eq_add_one, Nat.mod_add_mod]
  congr 1
  omega

private theorem add_mod_injective {i j : Nat} (hi : i < n) (hj : j < n)
    (h : (start + i) % n = (start + j) % n) :
    i = j := by
  have hmod : Nat.ModEq n i j := Nat.ModEq.add_left_cancel' start h
  exact hmod.eq_of_lt_of_lt hi hj

/-- The next slot is not in use as long as there is one left. -/
theorem next_not_mem_slots (h : count < n) : (start + count) % n ∉ slots n start count := by
  simp only [slots, List.mem_map, List.mem_range, not_exists, not_and]
  intro j hj heq
  have := add_mod_injective (by omega) h heq
  omega

theorem mem_slots_lt {i : Nat} (hn : 0 < n) (h : i ∈ slots n start count) : i < n := by
  obtain ⟨j, -, rfl⟩ := List.mem_map.mp h
  exact Nat.mod_lt _ hn

/-- The first slot is not met again before the ring is full. -/
theorem first_not_mem_slots (h : count < n) : start % n ∉ slots n ((start + 1) % n) count := by
  simp only [slots, List.mem_map, List.mem_range, not_exists, not_and]
  intro j hj heq
  rw [Nat.mod_add_mod, Nat.add_assoc] at heq
  have := add_mod_injective (i := 1 + j) (j := 0) (by omega) (by omega) heq
  omega

/-! A ring whose slots in use hold the items of a queue. -/

variable {α : Type*} {R R' : Nat → α → Prop} {I I' : Nat → Prop} {items : List α} {a : α}

/-- The slots from `start` on hold these items, and the other ones are idle. -/
structure Occupied (n start : Nat) (R : Nat → α → Prop) (I : Nat → Prop) (items : List α) : Prop where
  holds : List.Forall₂ R (slots n start items.length) items
  idle : ∀ i < n, i ∉ slots n start items.length → I i

theorem occupied_nil (h : ∀ i < n, I i) : Occupied n start R I [] := ⟨.nil, fun i hi _ => h i hi⟩

private theorem forall₂_imp_mem {is : List Nat} (h : ∀ i ∈ is, ∀ a, R i a → R' i a)
    (hr : List.Forall₂ R is items) :
    List.Forall₂ R' is items := by
  induction hr with
  | nil => exact .nil
  | cons hia _ ih => exact .cons (h _ (by simp) _ hia) (ih fun i hi => h i (by simp [hi]))

/-- The first item is in the first slot. -/
theorem Occupied.first (h : Occupied n start R I (a :: items)) (hstart : start < n) : R start a := by
  have hholds := h.holds
  rw [List.length_cons, slots_cons, Nat.mod_eq_of_lt hstart] at hholds
  exact (List.forall₂_cons.mp hholds).1

/-- A new item in the next slot, if the other slots stay as they are. -/
theorem Occupied.push (h : Occupied n start R I items) (hroom : items.length < n)
    (hnew : R' ((start + items.length) % n) a)
    (hold : ∀ i < n, i ≠ (start + items.length) % n → (∀ b, R i b → R' i b) ∧ (I i → I' i)) :
    Occupied n start R' I' (items ++ [a]) := by
  have hslots : slots n start (items ++ [a]).length = slots n start items.length ++
    [(start + items.length) % n] := by
    rw [List.length_append, List.length_singleton, slots_succ]
  refine ⟨?_, fun i hi hmem => ?_⟩
  · rw [hslots]
    refine List.rel_append (forall₂_imp_mem (fun i hi => ?_) h.holds) (.cons hnew .nil)
    exact (hold i (mem_slots_lt (by omega) hi) (ne_of_mem_of_not_mem hi (next_not_mem_slots hroom))).1
  · rw [hslots, List.mem_append, List.mem_singleton, not_or] at hmem
    exact (hold i hi hmem.2).2 (h.idle i hi hmem.1)

/-- The first slot becomes idle, if the other slots stay as they are. -/
theorem Occupied.pop (h : Occupied n start R I (a :: items)) (hstart : start < n) (hroom : items.length < n)
    (hfirst : I' start) (hold : ∀ i < n, i ≠ start → (∀ b, R i b → R' i b) ∧ (I i → I' i)) :
    Occupied n ((start + 1) % n) R' I' items := by
  have hslots : slots n start (a :: items).length = start :: slots n ((start + 1) % n) items.length := by
    rw [List.length_cons, slots_cons, Nat.mod_eq_of_lt hstart]
  have hnot : start ∉ slots n ((start + 1) % n) items.length := by
    have hfresh : start % n ∉ slots n ((start + 1) % n) items.length := first_not_mem_slots hroom
    rwa [Nat.mod_eq_of_lt hstart] at hfresh
  refine ⟨?_, fun i hi hmem => ?_⟩
  · have hholds := h.holds
    rw [hslots] at hholds
    refine forall₂_imp_mem (fun i hi => ?_) (List.forall₂_cons.mp hholds).2
    exact (hold i (mem_slots_lt (by omega) hi) (ne_of_mem_of_not_mem hi hnot)).1
  · by_cases hne : i = start
    · exact hne ▸ hfirst
    · refine (hold i hi hne).2 (h.idle i hi ?_)
      rw [hslots]
      exact List.not_mem_cons_of_ne_of_not_mem hne hmem

/-! A ring that keeps the latest items: a new one takes the place of the oldest. -/

/-- The slot `i` places in front of another one. -/
def back (n head i : Nat) : Nat := (head + n - i) % n

theorem back_lt {head i : Nat} (hn : 0 < n) : back n head i < n := Nat.mod_lt _ hn

theorem back_one {head : Nat} (hhead : head < n) : back n ((head + 1) % n) 1 = head := by
  rcases Nat.lt_or_ge (head + 1) n with hlt | hge
  · rw [back, Nat.mod_eq_of_lt hlt, show head + 1 + n - 1 =
      head + n by omega, Nat.add_mod_right, Nat.mod_eq_of_lt hhead]
  · rw [back, show head + 1 = n by omega, Nat.mod_self, Nat.zero_add, Nat.mod_eq_of_lt (by omega)]
    omega

/-- From the next slot it is one place more. -/
theorem back_next {head i : Nat} (hhead : head < n) (hi : i < n) :
    back n ((head + 1) % n) (i + 1) = back n head i := by
  rcases Nat.lt_or_ge (head + 1) n with hlt | hge
  · rw [back, back, Nat.mod_eq_of_lt hlt]
    congr 1
    omega
  · rw [back, back, show head + 1 =
      n by omega, Nat.mod_self, Nat.zero_add, show head + n - i = n - (i + 1) + n by omega, Nat.add_mod_right]

/-- Within a round only the slot itself is met. -/
theorem back_ne {head i : Nat} (hhead : head < n) (hpos : 0 < i) (hi : i < n) : back n head i ≠ head := by
  rcases Nat.lt_or_ge head i with hlt | hge
  · rw [back, Nat.mod_eq_of_lt (by omega)]
    omega
  · rw [back, show head + n - i = head - i + n by omega, Nat.add_mod_right, Nat.mod_eq_of_lt (by omega)]
    omega

/-- In front of the next slot to write stand the latest items. -/
structure Latest (n head count : Nat) (R : Nat → α → Prop) (items : List α) : Prop where
  head_lt : head < n
  count_eq : count = min n items.length
  holds : ∀ i (h : i < items.length), i < n → R (back n head (i + 1)) items[i]

theorem latest_nil {head : Nat} (hhead : head < n) : Latest n head 0 R [] :=
    ⟨hhead, by simp, fun _ h => absurd h (Nat.not_lt_zero _)⟩

/-- A new item is written, the other slots stay as they are. -/
theorem Latest.push {head : Nat} (h : Latest n head count R items) (hnew : R' head a)
    (hold : ∀ i < n, i ≠ head → ∀ b, R i b → R' i b) :
    Latest n ((head + 1) % n) (if count < n then count + 1 else count) R' (a :: items) := by
  have ⟨hhead, hcount, hholds⟩ := h
  refine ⟨Nat.mod_lt _ (by omega), ?_, fun i hi hn => ?_⟩
  · rw [List.length_cons]
    split <;> omega
  · cases i with
    | zero =>
      rw [back_one hhead]
      exact hnew
    | succ i =>
      rw [List.length_cons] at hi
      rw [back_next hhead hn]
      exact hold _ (back_lt (by omega)) (back_ne hhead (Nat.succ_pos i) hn) _ (hholds i (by omega) (by omega))

end GeckoOS.Lib
