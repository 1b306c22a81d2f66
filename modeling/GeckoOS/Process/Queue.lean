import GeckoOS.Lib.Ring
import GeckoOS.Lib.Runs

/-! The process queue of process.c is a bounded queue: a ring of pointers in which
one slot stays free, so that a full ring is not taken for an empty one. -/
namespace GeckoOS.Process
open Lib

def maxProcesses : UInt32 := 16

/-- The struct. A pointer to a process is `none` if it is NULL. -/
structure Queue (P : Type) where
  data : Nat → Option P
  head : UInt32
  tail : UInt32

variable {P : Type}

/-- The slot behind another one. -/
def next (i : UInt32) : UInt32 := (i + 1) &&& (maxProcesses - 1)

/-- The end of `enqueue`, where there is a queue. -/
def Queue.put (q : Queue P) (v : Option P) : Int × Queue P :=
  if next q.tail = q.head then (-1, q)
  else (0, { q with data := Function.update q.data q.tail.toNat v, tail := next q.tail })

/-- `enqueue`. The first call makes the queue in the memory that `kmalloc` gives,
and that holds anything. -/
def enqueue (kmalloc : Option (Nat → Option P)) (q : Option (Queue P)) (v : Option P) :
    Int × Option (Queue P) :=
  match q with
  | some q => ((q.put v).1, some (q.put v).2)
  | none =>
    match kmalloc with
    | none => (-1, none)
    | some memory => (((⟨memory, 0, 0⟩ : Queue P).put v).1, some ((⟨memory, 0, 0⟩ : Queue P).put v).2)

def Queue.dequeue (q : Queue P) : Option P × Queue P :=
  if q.head = q.tail then (none, q) else (q.data q.head.toNat, { q with head := next q.head })

/-- A call with what it returns. -/
inductive Call (P : Type) where
  | enqueue (v : P) (result : Int)
  | dequeue (p : Option P)

/-- The calls on `process_queue`. No call takes from a queue that has not been made. -/
inductive Step : Option (Queue P) → Call P → Option (Queue P) → Prop
  | enqueue (memory : Nat → Option P) (q : Option (Queue P)) (v : P) :
      Step q (.enqueue v (Process.enqueue (some memory) q (some v)).1)
        (Process.enqueue (some memory) q (some v)).2
  | dequeue (q : Queue P) : Step (some q) (.dequeue q.dequeue.1) (some q.dequeue.2)

/-- The processes that were put into the queue. -/
def accepted : List (Call P) → List P := List.filterMap fun
  | .enqueue v result => if result = 0 then some v else none
  | .dequeue _ => none

/-- The processes that were taken out of it. -/
def taken : List (Call P) → List P := List.filterMap fun
  | .enqueue _ _ => none
  | .dequeue p => p

/-- The ring with these processes in it. -/
structure Queue.Holds (q : Queue P) (waiting : List P) : Prop where
  head_lt : q.head.toNat < maxProcesses.toNat
  room : waiting.length < maxProcesses.toNat
  tail : q.tail.toNat = (q.head.toNat + waiting.length) % maxProcesses.toNat
  occupied : Occupied maxProcesses.toNat q.head.toNat (fun i p => q.data i = some p) (fun _ => True) waiting

variable {q : Queue P} {waiting : List P} {v p : P}

/-- The mask takes the remainder. -/
theorem next_toNat (i : UInt32) : (next i).toNat = (i.toNat + 1) % maxProcesses.toNat := by
  have hmask : (maxProcesses - 1).toNat = 2 ^ 4 - 1 := rfl
  rw [next, UInt32.toNat_and, hmask, Nat.and_two_pow_sub_one_eq_mod, UInt32.toNat_add]
  exact Nat.mod_mod_of_dvd _ (by decide)

theorem holds_new (memory : Nat → Option P) : Queue.Holds ⟨memory, 0, 0⟩ [] where
  head_lt := Nat.succ_pos 15
  room := Nat.succ_pos 15
  tail := rfl
  occupied := occupied_nil fun _ _ => trivial

namespace Queue

/-- The next slot is the first one exactly if all the others are in use. -/
theorem Holds.full_iff (h : q.Holds waiting) : next q.tail = q.head ↔
    waiting.length = maxProcesses.toNat - 1 := by
  have hhead := h.head_lt
  have hroom := h.room
  have hsixteen : maxProcesses.toNat = 16 := rfl
  rw [← UInt32.toNat_inj, next_toNat, h.tail, Nat.mod_add_mod]
  rw [hsixteen] at hhead hroom ⊢
  omega

theorem Holds.empty_iff (h : q.Holds waiting) : q.head = q.tail ↔ waiting = [] := by
  have hhead := h.head_lt
  have hroom := h.room
  have hsixteen : maxProcesses.toNat = 16 := rfl
  rw [← UInt32.toNat_inj, h.tail, ← List.length_eq_zero_iff]
  rw [hsixteen] at hhead hroom ⊢
  omega

theorem Holds.put_full (h : q.Holds waiting) (hfull : waiting.length = maxProcesses.toNat - 1) (v : Option P) :
    q.put v = (-1, q) := by
  rw [put, if_pos (h.full_iff.mpr hfull)]

/-- With a second slot free the process goes into the first of them. -/
theorem Holds.put_room (h : q.Holds waiting) (hroom : waiting.length ≠ maxProcesses.toNat - 1) (v : P) :
    (q.put (some v)).1 = 0 ∧ (q.put (some v)).2.Holds (waiting ++ [v]) := by
  have hlen := h.room
  rw [put, if_neg (mt h.full_iff.mp hroom)]
  refine ⟨rfl, h.head_lt, ?_, ?_, ?_⟩
  · rw [List.length_append, List.length_singleton]
    omega
  · rw [next_toNat, h.tail, Nat.mod_add_mod, List.length_append, List.length_singleton, Nat.add_assoc]
  · refine h.occupied.push hlen ?_ fun i _ hne => ⟨fun p hp => ?_, id⟩
    · rw [← h.tail]
      exact Function.update_self ..
    · rw [← h.tail] at hne
      exact (Function.update_of_ne hne ..).trans hp

theorem Holds.dequeue_nil (h : q.Holds []) : q.dequeue = (none, q) := by
  rw [dequeue, if_pos (h.empty_iff.mpr rfl)]

/-- The process that waits longest comes out. -/
theorem Holds.dequeue_cons (h : q.Holds (p :: waiting)) : q.dequeue.1 = some p ∧ q.dequeue.2.Holds waiting := by
  have hlen := h.room
  rw [List.length_cons] at hlen
  rw [dequeue, if_neg (mt h.empty_iff.mp (List.cons_ne_nil p waiting))]
  refine ⟨h.occupied.first h.head_lt, ?_, by omega, ?_, ?_⟩
  · rw [next_toNat]
    exact Nat.mod_lt _ (by decide)
  · rw [next_toNat, h.tail, Nat.mod_add_mod, List.length_cons]
    congr 1
    omega
  · rw [next_toNat]
    exact h.occupied.pop h.head_lt (by omega) trivial fun _ _ _ => ⟨fun _ hp => hp, id⟩

theorem Holds.dequeue (h : q.Holds waiting) : q.dequeue.1 = waiting.head? ∧ q.dequeue.2.Holds waiting.tail := by
  cases waiting with
  | nil =>
    rw [h.dequeue_nil]
    exact ⟨rfl, h⟩
  | cons p waiting => exact h.dequeue_cons

end Queue

/-! Whole runs. -/

/-- Before the first call nothing waits. -/
def Waits : Option (Queue P) → List P → Prop
  | none, waiting => waiting = []
  | some q, waiting => q.Holds waiting

variable {q q' : Option (Queue P)}

theorem Waits.enqueue_full (h : Waits q waiting) (hfull : waiting.length = maxProcesses.toNat - 1)
    (memory : Nat → Option P) (v : P) : enqueue (some memory) q (some v) = (-1, q) := by
  cases q with
  | none =>
    rw [h] at hfull
    cases hfull
  | some q => rw [enqueue, Queue.Holds.put_full h hfull]

theorem Waits.enqueue_room (h : Waits q waiting) (hroom : waiting.length ≠ maxProcesses.toNat - 1)
    (memory : Nat → Option P) (v : P) : (enqueue (some memory) q (some v)).1 = 0 ∧
      Waits (enqueue (some memory) q (some v)).2 (waiting ++ [v]) := by
  cases q with
  | none =>
    cases h
    exact (holds_new memory).put_room hroom v
  | some q => exact Queue.Holds.put_room h hroom v

/-- What waits and what comes in is what goes out and what waits then. -/
theorem Waits.step {call : Call P} (h : Waits q waiting) (hstep : Step q call q') :
    ∃ waiting', Waits q' waiting' ∧ waiting ++ accepted [call] = taken [call] ++ waiting' := by
  cases hstep with
  | enqueue memory q v =>
    by_cases hfull : waiting.length = maxProcesses.toNat - 1
    · rw [h.enqueue_full hfull]
      exact ⟨waiting, h, List.append_nil _⟩
    · obtain ⟨hresult, hwaits⟩ := h.enqueue_room hfull memory v
      refine ⟨_, hwaits, ?_⟩
      rw [hresult]
      rfl
  | dequeue q =>
    obtain ⟨hresult, hwaits⟩ := Queue.Holds.dequeue h
    refine ⟨waiting.tail, hwaits, ?_⟩
    rw [hresult]
    cases waiting with
    | nil => rfl
    | cons p waiting => exact List.append_nil _

theorem Waits.run {calls : List (Call P)} (h : Waits q waiting) (hrun : Run Step q calls q') :
    ∃ waiting', Waits q' waiting' ∧ waiting ++ accepted calls = taken calls ++ waiting' :=
      hrun.queue Waits.step h

/-- After any calls the processes taken out and those that wait are the accepted ones
in their order; the next call of `enqueue` fails exactly if 15 processes wait, and
leaves the queue as it is, and the next `dequeue` gives the process that waits
longest, NULL exactly if there is none. -/
theorem queue_fifo (calls : List (Call P)) (q : Option (Queue P)) (hrun : Run Step none calls q) :
    ∃ waiting, accepted calls = taken calls ++ waiting ∧
      (∀ memory v, ((enqueue (some memory) q (some v)).1 ≠ 0 ↔ waiting.length = maxProcesses.toNat - 1) ∧
        ((enqueue (some memory) q (some v)).1 ≠ 0 → enqueue (some memory) q (some v) = (-1, q))) ∧
      ∀ r, q = some r → r.dequeue.1 = waiting.head? ∧ (r.dequeue.1 = none ↔ waiting = []) := by
  obtain ⟨waiting, hwaits, heq⟩ := (show Waits none [] from rfl).run hrun
  refine ⟨waiting, heq, fun memory v => ?_, fun r hr => ?_⟩
  · by_cases hfull : waiting.length = maxProcesses.toNat - 1
    · rw [hwaits.enqueue_full hfull]
      exact ⟨⟨fun _ => hfull, fun _ => (by decide : (-1 : Int) ≠ 0)⟩, fun _ => rfl⟩
    · have hresult := (hwaits.enqueue_room hfull memory v).1
      exact ⟨⟨fun hne => absurd hresult hne, fun h => absurd h hfull⟩, fun hne => absurd hresult hne⟩
  · subst hr
    obtain ⟨hresult, -⟩ := Queue.Holds.dequeue hwaits
    refine ⟨hresult, ?_⟩
    rw [hresult]
    exact List.head?_eq_none_iff

/-- A queue takes processes until 15 wait. -/
theorem Waits.fill (h : Waits q waiting) (vs : List P)
    (hroom : waiting.length + vs.length < maxProcesses.toNat) :
    ∃ q', Run Step q (vs.map (Call.enqueue · 0)) q' ∧ Waits q' (waiting ++ vs) := by
  induction vs generalizing q waiting with
  | nil =>
    rw [List.append_nil]
    exact ⟨q, .nil q, h⟩
  | cons v vs ih =>
    rw [List.length_cons] at hroom
    obtain ⟨hresult, hwaits⟩ := h.enqueue_room (by omega) (fun _ => none) v
    have hstep : Step q (.enqueue v 0) _ := hresult ▸ Step.enqueue (fun _ => none) q v
    obtain ⟨q', hrun, hwaits'⟩ := ih hwaits (by
      rw [List.length_append, List.length_singleton]
      omega)
    rw [List.append_assoc] at hwaits'
    exact ⟨q', .cons hstep hrun, hwaits'⟩

/-- A full queue stays as it is. -/
theorem Waits.refuse (h : Waits q waiting) (hfull : waiting.length = maxProcesses.toNat - 1) (v : P) :
    Step q (.enqueue v (-1)) q := by
  have hstep := Step.enqueue (fun _ => none) q v
  rw [h.enqueue_full hfull] at hstep
  exact hstep

theorem Waits.serve (h : Waits q (p :: waiting)) : ∃ q', Step q (.dequeue (some p)) q' ∧ Waits q' waiting := by
  cases q with
  | none => exact absurd h (List.cons_ne_nil p waiting)
  | some q =>
    obtain ⟨hresult, hwaits⟩ := Queue.Holds.dequeue_cons h
    exact ⟨some q.dequeue.2, hresult ▸ Step.dequeue q, hwaits⟩

/-- Sixteen processes of which the last finds the queue full, and one more when the
first is gone: it goes into the slot that had stayed free. -/
theorem queue_fifo_wraps : ∃ (q : Queue Nat) (waiting : List Nat),
    Run Step none ((List.range 15).map (Call.enqueue · 0) ++
      [.enqueue 15 (-1), .dequeue (some 0), .enqueue 16 0, .dequeue (some 1)]) (some q) ∧
    List.range 15 ++ [16] = [0, 1] ++ waiting ∧ q.dequeue.1 = some 2 := by
  obtain ⟨q₁, hrun₁, hwaits₁⟩ := (show Waits none [] from rfl).fill (List.range 15) (by decide)
  have hfull := hwaits₁.refuse (by decide) 15
  obtain ⟨q₂, hfirst, hwaits₂⟩ := hwaits₁.serve
  obtain ⟨q₃, hrun₃, hwaits₃⟩ := hwaits₂.fill [16] (by decide)
  obtain ⟨q₄, hsecond, hwaits₄⟩ := hwaits₃.serve
  cases q₄ with
  | none => cases hwaits₄
  | some q =>
    have hrun := hrun₁.append (.cons hfull (.cons hfirst (hrun₃.append (.cons hsecond (.nil _)))))
    obtain ⟨waiting, heq, -, htaken⟩ := queue_fifo _ _ hrun
    have hwaiting : [0, 1] ++ (List.range' 2 13 ++ [16]) = [0, 1] ++ waiting := heq
    refine ⟨q, waiting, hrun, hwaiting, ?_⟩
    rw [(htaken q rfl).1, ← List.append_cancel_left hwaiting]
    rfl

end GeckoOS.Process
