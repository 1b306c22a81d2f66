import GeckoOS.Drivers.ReceiveRing

/-! All frames are sent from one buffer: a frame is the data of its call as long
as no later call has changed that buffer. -/
namespace GeckoOS.Drivers.E1000
open Lib

namespace Tx

/-- The buffer has what this descriptor is to send. -/
structure Contains (s : Tx) (i : Nat) (data : List UInt8) : Prop where
  busy : (s.descs i).done = false
  addr : (s.descs i).addr = s.buf
  length : (s.descs i).length = data.length
  bytes : s.mem.bytes s.buf data.length = data

/-- The ring with the data of these calls in it. -/
structure Queue (s : Tx) (pending : List (List UInt8)) : Prop where
  head_lt : s.head < numTxDesc
  room : pending.length ≤ numTxDesc
  tail : s.tail = (s.head + pending.length) % numTxDesc
  tdt : s.tdt = s.tail
  occupied : Occupied numTxDesc s.head s.Contains (fun i => (s.descs i).done = true) pending

/-- A call that gets a descriptor leaves the bytes that other descriptors still
have to send as they are. -/
def Undisturbed (s : Tx) (data : List UInt8) : Prop :=
  data.length ≤ txBufSize → (s.descs s.tail).done = true → ∀ i < numTxDesc, (s.descs i).done = false →
    ∀ k < data.length, k < (s.descs i).length → data.getD k 0 = s.mem (s.buf + k)

variable {s s' : Tx} {pending : List (List UInt8)} {data : List UInt8}

theorem queue_init (descs : Nat → TxDesc) (mem : View) (buf : Nat) : Queue (init descs mem buf) [] where
  head_lt := Nat.zero_lt_succ 7
  room := Nat.zero_le 8
  tail := rfl
  tdt := rfl
  occupied := occupied_nil fun i _ => by simp [init, TxDesc.done, statDD]

private theorem done_or (d : TxDesc) : ({ d with status := d.status ||| statDD } : TxDesc).done = true := by
  have hbit : (d.status ||| 1) &&& 1 = 1 := by
    apply UInt8.toBitVec_inj.mp
    ext i hi
    simp
    omega
  simp [TxDesc.done, statDD, hbit]

/-- With a free descriptor at the tail the ring is not full. -/
theorem Queue.length_lt (h : Queue s pending) (hfree : (s.descs s.tail).done = true) :
    pending.length < numTxDesc := by
  refine Nat.lt_of_le_of_ne h.room fun hfull => ?_
  have htail : s.tail = s.head := by
    rw [h.tail, hfull, Nat.add_mod_right, Nat.mod_eq_of_lt h.head_lt]
  obtain ⟨data, pending, rfl⟩ := List.exists_cons_of_length_eq_add_one (show pending.length = 7 + 1 from hfull)
  have hbusy := (h.occupied.first h.head_lt).busy
  rw [← htail, hfree] at hbusy
  cases hbusy

/-- With nothing to send there is nothing to disturb. -/
theorem Queue.undisturbed (h : Queue s []) (data : List UInt8) : s.Undisturbed data := by
  intro _ _ i hi hbusy
  have hdone := h.occupied.idle i hi List.not_mem_nil
  rw [hbusy] at hdone
  cases hdone

theorem send_cases (s : Tx) (data : List UInt8) :
    (data.length ≤ txBufSize ∧ (s.descs s.tail).done = true ∧ s.send data = (0, s.filled data)) ∨
    s.send data = (-1, s) := by
  unfold send
  split
  · exact .inr rfl
  · split
    · exact .inr rfl
    · next hlen hfree => exact .inl ⟨Nat.le_of_not_lt hlen, by simpa using hfree, rfl⟩

theorem step_filled (hlen : data.length ≤ txBufSize) (hfree : (s.descs s.tail).done = true) :
    Step s (.called data 0) (s.filled data) := by
  have hstep : Step s (.called data (s.send data).1) (s.send data).2 := .called data
  have heq : s.send data = (0, s.filled data) := by
    rw [send, if_neg (Nat.not_lt.mpr hlen), hfree]
    rfl
  rwa [heq] at hstep

theorem Queue.filled (h : Queue s pending) (hfree : (s.descs s.tail).done = true)
    (hkeep : ∀ i < numTxDesc, (s.descs i).done = false → ∀ k < data.length, k < (s.descs i).length →
      data.getD k 0 = s.mem (s.buf + k)) : Queue (s.filled data) (pending ++ [data]) := by
  have hcount := h.length_lt hfree
  have hdesc : (s.filled data).descs s.tail = ⟨s.buf, data.length, txdCmd, 0⟩ := Function.update_self ..
  have hother : ∀ i ≠ s.tail, (s.filled data).descs i = s.descs i := fun i hne => Function.update_of_ne hne ..
  have hnew : (s.filled data).Contains s.tail data := by
    refine ⟨by rw [hdesc]; simp [TxDesc.done], by rw [hdesc]; rfl, by rw [hdesc], copyTo_bytes ..⟩
  exact {
    head_lt := h.head_lt
    room := by
      rw [List.length_append, List.length_singleton]
      omega
    tail := by
      show (s.tail + 1) % numTxDesc = (s.head + (pending ++ [data]).length) % numTxDesc
      rw [h.tail, Nat.mod_add_mod, List.length_append, List.length_singleton, Nat.add_assoc]
    tdt := rfl
    occupied := by
      refine h.occupied.push hcount (h.tail ▸ hnew) fun i hi hne => ⟨fun d hd => ?_, fun hidle => ?_⟩
      · rw [← h.tail] at hne
        have hsame : (copyTo s.mem s.buf data).bytes s.buf d.length = s.mem.bytes s.buf d.length := by
          refine View.bytes_congr fun k hk => ?_
          rw [copyTo]
          split
          · rw [Nat.add_sub_cancel_left]
            exact hkeep i hi hd.busy k (by omega) (by rw [hd.length]; exact hk)
          · rfl
        exact ⟨hother i hne ▸ hd.busy, hother i hne ▸ hd.addr, hother i hne ▸ hd.length, hsame.trans hd.bytes⟩
      · rw [← h.tail] at hne
        rwa [hother i hne] }

/-- The card sends the oldest data. -/
theorem Queue.frame_cons (h : Queue s (data :: pending)) : s.frame = data := by
  obtain ⟨-, haddr, hlength, hbytes⟩ := h.occupied.first h.head_lt
  rw [frame, haddr, hlength, hbytes]

theorem Queue.transmit (h : Queue s (data :: pending)) : Queue s.transmit pending := by
  have hroom := h.room
  rw [List.length_cons] at hroom
  have hdesc : s.transmit.descs s.head = { s.descs s.head with status := (s.descs s.head).status ||| statDD } :=
    Function.update_self ..
  have hother : ∀ i ≠ s.head, s.transmit.descs i = s.descs i := fun i hne => Function.update_of_ne hne ..
  exact {
    head_lt := Nat.mod_lt _ (by decide)
    room := by omega
    tail := by
      show s.tail = ((s.head + 1) % numTxDesc + pending.length) % numTxDesc
      rw [h.tail, Nat.mod_add_mod, List.length_cons]
      congr 1
      omega
    tdt := h.tdt
    occupied := by
      refine h.occupied.pop h.head_lt (by omega) (by rw [hdesc]; exact done_or _) fun i hi hne =>
        ⟨fun d hd => ?_, fun hidle => ?_⟩
      · exact ⟨hother i hne ▸ hd.busy, hother i hne ▸ hd.addr, hother i hne ▸ hd.length, hd.bytes⟩
      · rwa [hother i hne] }

/-! Whole runs. -/

/-- A step in which a call leaves the frames that are to be sent undisturbed. -/
def CarefulStep (s : Tx) (event : Event) (s' : Tx) : Prop :=
  Step s event s' ∧ ∀ data result, event = .called data result → s.Undisturbed data

theorem Queue.step {event : Event} (h : Queue s pending) (hstep : CarefulStep s event s') :
    ∃ pending', Queue s' pending' ∧ pending ++ acceptedIn [event] = sentIn [event] ++ pending' := by
  obtain ⟨hstep, hcareful⟩ := hstep
  cases hstep with
  | called data =>
    obtain ⟨hlen, hfree, heq⟩ | heq := s.send_cases data
    · rw [heq]
      exact ⟨_, h.filled hfree (hcareful _ _ rfl hlen hfree), rfl⟩
    · rw [heq]
      exact ⟨pending, h, List.append_nil _⟩
  | sent hwork =>
    cases pending with
    | nil =>
      have htail := h.tail
      rw [List.length_nil, Nat.add_zero, Nat.mod_eq_of_lt h.head_lt] at htail
      exact absurd (htail.symm.trans h.tdt.symm) hwork
    | cons data pending =>
      rw [h.frame_cons]
      exact ⟨pending, h.transmit, List.append_nil _⟩

theorem Queue.run {events : List Event} (h : Queue s pending) (hrun : Run CarefulStep s events s') :
    ∃ pending', Queue s' pending' ∧ pending ++ acceptedIn events = sentIn events ++ pending' :=
  hrun.queue Queue.step h

/-- As long as no call disturbs a frame that is still to be sent, the frames on
the wire are the data of the successful calls, each once and in order. -/
theorem transmit_integrity (descs : Nat → TxDesc) (mem : View) (buf : Nat) (events : List Event) (s : Tx)
    (hrun : Run CarefulStep (init descs mem buf) events s) : sentIn events <+: acceptedIn events := by
  obtain ⟨pending, -, heq⟩ := (queue_init descs mem buf).run hrun
  exact ⟨pending, heq.symm⟩

/-- A call after the card is done with the frame before. -/
theorem transmit_integrity_apart : ∃ s, Run CarefulStep (init (fun _ => ⟨0, 0, 0, 0⟩) (fun _ => 0) 0)
    [.called [1] 0, .sent [1], .called [2] 0] s ∧
    sentIn [.called [1] 0, .sent [1], .called [2] 0] <+:
      acceptedIn [.called [1] 0, .sent [1], .called [2] 0] := by
  set s₀ := init (fun _ => ⟨0, 0, 0, 0⟩) (fun _ => 0) 0 with hs₀
  have hempty : Queue s₀ [] := queue_init ..
  have hfilled : Queue (s₀.filled [1]) [[1]] :=
    hempty.filled (by decide) (hempty.undisturbed _ (by decide) (by decide))
  have hfirst : CarefulStep s₀ (.called [1] 0) (s₀.filled [1]) :=
    ⟨step_filled (by decide) (by decide), fun _ _ _ => hempty.undisturbed _⟩
  have hsent : CarefulStep (s₀.filled [1]) (.sent [1]) (s₀.filled [1]).transmit :=
    ⟨.sent (s := s₀.filled [1]) (by decide), fun _ _ h => (by cases h)⟩
  have hsecond : CarefulStep (s₀.filled [1]).transmit (.called [2] 0) ((s₀.filled [1]).transmit.filled [2]) :=
    ⟨step_filled (by decide) (by decide), fun _ _ _ => hfilled.transmit.undisturbed _⟩
  have hrun := Run.cons hfirst (Run.cons hsent (Run.cons hsecond (.nil _)))
  exact ⟨_, hrun, transmit_integrity _ _ _ _ _ hrun⟩

/-- Two calls before the card gets to work: the second frame is sent twice. -/
theorem transmit_overwritten : ∃ s, Run Step (init (fun _ => ⟨0, 0, 0, 0⟩) (fun _ => 0) 0)
    [.called [1] 0, .called [2] 0, .sent [2]] s ∧
    ¬ sentIn [.called [1] 0, .called [2] 0, .sent [2]] <+:
      acceptedIn [.called [1] 0, .called [2] 0, .sent [2]] :=
  ⟨_, .cons (.called [1]) (.cons (.called [2]) (.cons (.sent (by decide)) (.nil _))), by decide⟩

end Tx
end GeckoOS.Drivers.E1000
