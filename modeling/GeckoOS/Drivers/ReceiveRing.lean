import GeckoOS.Drivers.E1000

/-! The receive ring is a queue: between the tail of the driver and the head of
the card stand the packets that have not been returned yet. -/
namespace GeckoOS.Drivers.E1000
open Lib

theorem copyTo_bytes (m : View) (a : Nat) (data : List UInt8) :
    (copyTo m a data).bytes a data.length = data := by
  refine List.ext_getElem (by simp) fun i hi hi' => ?_
  simp [View.bytes, copyTo, hi']

/-- Memory apart from the copy. -/
theorem copyTo_apart {m : View} {a b n : Nat} {data : List UInt8} (h : b + n ≤ a ∨ a + data.length ≤ b) :
    (copyTo m a data).bytes b n = m.bytes b n := by
  refine View.bytes_congr fun i hi => ?_
  rw [copyTo, if_neg (by omega)]

namespace Rx

/-- The buffer of descriptor `i` holds this packet. -/
structure Contains (s : Rx) (i : Nat) (packet : List UInt8) : Prop where
  done : (s.descs i).done = true
  length : (s.descs i).length = packet.length
  fits : packet.length ≤ rxBufSize
  bytes : s.mem.bytes (s.bufs + i * rxBufSize) packet.length = packet

/-- The ring with these packets in it. -/
structure Queue (s : Rx) (waiting : List (List UInt8)) : Prop where
  tail_lt : s.tail < numRxDesc
  room : waiting.length < numRxDesc
  head : s.head = (s.tail + waiting.length) % numRxDesc
  rdt : s.rdt = (s.tail + (numRxDesc - 1)) % numRxDesc
  addr : ∀ i < numRxDesc, (s.descs i).addr = s.bufs + i * rxBufSize
  occupied : Occupied numRxDesc s.tail s.Contains (fun i => (s.descs i).done = false) waiting

variable {s s' : Rx} {waiting : List (List UInt8)} {packet : List UInt8} {status : UInt8}

theorem queue_init (descs : Nat → RxDesc) (mem : View) (bufs : Nat) : Queue (init descs mem bufs) [] where
  tail_lt := Nat.zero_lt_succ 31
  room := Nat.zero_lt_succ 31
  head := rfl
  rdt := rfl
  addr _ _ := rfl
  occupied := occupied_nil fun i _ => by simp [init, RxDesc.done]

/-- The card has room exactly if fewer than 31 packets wait. -/
theorem Queue.length_lt (h : Queue s waiting) (hroom : s.head ≠ s.rdt) : waiting.length < numRxDesc - 1 := by
  have hlen := h.room
  by_contra hfull
  rw [h.head, h.rdt, show waiting.length = numRxDesc - 1 by omega] at hroom
  exact hroom rfl

theorem Queue.head_lt (h : Queue s waiting) : s.head < numRxDesc := by
  rw [h.head]
  exact Nat.mod_lt _ (by decide)

/-- The card does not touch the buffers of other descriptors. -/
theorem Queue.store_bytes (h : Queue s waiting) {i n : Nat} (hi : i ≠ s.head) (hlen : packet.length ≤ rxBufSize)
    (hn : n ≤ rxBufSize) :
    (s.store packet status).mem.bytes (s.bufs + i * rxBufSize) n = s.mem.bytes (s.bufs + i * rxBufSize) n := by
  rw [store, h.addr _ h.head_lt]
  refine copyTo_apart ?_
  rcases Nat.lt_or_gt_of_ne hi with hlt | hgt
  · have hmul := Nat.mul_le_mul_right rxBufSize (Nat.succ_le_of_lt hlt)
    rw [Nat.succ_mul] at hmul
    omega
  · have hmul := Nat.mul_le_mul_right rxBufSize (Nat.succ_le_of_lt hgt)
    rw [Nat.succ_mul] at hmul
    omega

theorem Queue.store (h : Queue s waiting) (hroom : s.head ≠ s.rdt) (hlen : packet.length ≤ rxBufSize)
    (hdone : status &&& statDD ≠ 0) : Queue (s.store packet status) (waiting ++ [packet]) := by
  have hcount := h.length_lt hroom
  have hdesc : (s.store packet status).descs s.head = ⟨(s.descs s.head).addr, packet.length, status⟩ :=
    Function.update_self ..
  have hother : ∀ i ≠ s.head, (s.store packet status).descs i = s.descs i :=
    fun i hne => Function.update_of_ne hne ..
  have hnew : (s.store packet status).Contains s.head packet := by
    refine ⟨by rw [hdesc]; simpa [RxDesc.done] using hdone, by rw [hdesc], hlen, ?_⟩
    rw [Rx.store, h.addr _ h.head_lt]
    exact copyTo_bytes ..
  exact {
    tail_lt := h.tail_lt
    room := by
      rw [List.length_append, List.length_singleton]
      omega
    head := by
      show (s.head + 1) % numRxDesc = (s.tail + (waiting ++ [packet]).length) % numRxDesc
      rw [h.head, Nat.mod_add_mod, List.length_append, List.length_singleton, Nat.add_assoc]
    rdt := h.rdt
    addr := by
      intro i hi
      by_cases hne : i = s.head
      · rw [hne, hdesc]
        exact h.addr _ h.head_lt
      · rw [hother i hne]
        exact h.addr i hi
    occupied := by
      refine h.occupied.push h.room (h.head ▸ hnew) fun i hi hne => ⟨fun p hp => ?_, fun hidle => ?_⟩
      · rw [← h.head] at hne
        exact ⟨hother i hne ▸ hp.done, hother i hne ▸ hp.length, hp.fits,
          (h.store_bytes hne hlen hp.fits).trans hp.bytes⟩
      · rw [← h.head] at hne
        rwa [hother i hne] }

theorem Queue.receive_nil (h : Queue s []) : s.receive = (none, s) := by
  have hidle := h.occupied.idle s.tail h.tail_lt List.not_mem_nil
  rw [receive, hidle]
  rfl

theorem Queue.release (h : Queue s (packet :: waiting)) : Queue s.release waiting := by
  have hroom := h.room
  rw [List.length_cons] at hroom
  have hdesc : s.release.descs s.tail = { s.descs s.tail with status := 0 } := Function.update_self ..
  have hother : ∀ i ≠ s.tail, s.release.descs i = s.descs i := fun i hne => Function.update_of_ne hne ..
  exact {
    tail_lt := Nat.mod_lt _ (by decide)
    room := by omega
    head := by
      show s.head = ((s.tail + 1) % numRxDesc + waiting.length) % numRxDesc
      rw [h.head, Nat.mod_add_mod, List.length_cons]
      congr 1
      omega
    rdt := by
      show s.tail = ((s.tail + 1) % numRxDesc + (numRxDesc - 1)) % numRxDesc
      have := h.tail_lt
      rw [Nat.mod_add_mod, numRxDesc] at *
      omega
    addr := by
      intro i hi
      by_cases hne : i = s.tail
      · rw [hne, hdesc]
        exact h.addr _ h.tail_lt
      · rw [hother i hne]
        exact h.addr i hi
    occupied := by
      refine h.occupied.pop h.tail_lt (by omega) (by rw [hdesc]; simp [RxDesc.done]) fun i hi hne =>
        ⟨fun p hp => ?_, fun hidle => ?_⟩
      · exact ⟨hother i hne ▸ hp.done, hother i hne ▸ hp.length, hp.fits, hp.bytes⟩
      · rwa [hother i hne] }

theorem Queue.receive_cons (h : Queue s (packet :: waiting)) : s.receive = (some packet, s.release) := by
  obtain ⟨hdone, hlength, -, hbytes⟩ := h.occupied.first h.tail_lt
  rw [receive, if_pos hdone, hlength, hbytes]

/-- What the driver returns from any state of the ring. -/
theorem Queue.receive (h : Queue s waiting) : s.receive.1 = waiting.head? ∧ Queue s.receive.2 waiting.tail := by
  cases waiting with
  | nil =>
    rw [h.receive_nil]
    exact ⟨rfl, h⟩
  | cons packet waiting =>
    rw [h.receive_cons]
    exact ⟨rfl, h.release⟩

/-! Whole runs. -/

theorem Queue.step {event : Event} (h : Queue s waiting) (hstep : Step s event s') :
    ∃ waiting', Queue s' waiting' ∧ waiting ++ storedIn [event] = returnedIn [event] ++ waiting' := by
  cases hstep with
  | stored hroom hlen hdone => exact ⟨_, h.store hroom hlen hdone, rfl⟩
  | dropped _ => exact ⟨waiting, h, List.append_nil _⟩
  | received =>
    obtain ⟨hresult, hqueue⟩ := h.receive
    refine ⟨waiting.tail, hqueue, ?_⟩
    rw [hresult]
    cases waiting with
    | nil => rfl
    | cons packet waiting => exact List.append_nil _

theorem Queue.run {events : List Event} (h : Queue s waiting) (hrun : Run Step s events s') :
    ∃ waiting', Queue s' waiting' ∧ waiting ++ storedIn events = returnedIn events ++ waiting' :=
  hrun.queue Queue.step h

theorem Queue.empty (h : Queue s []) : Run Step s [.received none] s := by
  have hstep : Step s (.received s.receive.1) s.receive.2 := .received
  rw [h.receive_nil] at hstep
  exact .cons hstep (.nil s)

/-- As many calls as packets wait return them, and the others wait on. -/
theorem Queue.serve {packets : List (List UInt8)} (h : Queue s (packets ++ waiting)) :
    ∃ s', Run Step s (packets.map (fun packet => .received (some packet))) s' ∧ Queue s' waiting := by
  induction packets generalizing s with
  | nil => exact ⟨s, .nil s, h⟩
  | cons packet packets ih =>
    have hstep : Step s (.received s.receive.1) s.receive.2 := .received
    rw [Queue.receive_cons h] at hstep
    obtain ⟨s', hrun, hqueue⟩ := ih (Queue.release h)
    exact ⟨s', .cons hstep hrun, hqueue⟩

/-- A loop of calls until there is no packet returns all that wait. -/
theorem Queue.drain (h : Queue s waiting) :
    ∃ s', Run Step s (waiting.map (fun packet => .received (some packet)) ++ [.received none]) s' := by
  rw [← List.append_nil waiting] at h
  obtain ⟨s', hrun, hqueue⟩ := h.serve
  exact ⟨s', hrun.append hqueue.empty⟩

/-- In every state that the ring can reach, the packets returned so far and the ones
that the next calls return are the stored packets in their order, and a packet
that the card may store next leaves the buffers of those that wait as they are. -/
theorem receive_fifo (descs : Nat → RxDesc) (mem : View) (bufs : Nat) (events : List Event) (s : Rx)
    (hrun : Run Step (init descs mem bufs) events s) :
    ∃ waiting, storedIn events = returnedIn events ++ waiting ∧
      (∃ s', Run Step s (waiting.map (fun packet => .received (some packet)) ++ [.received none]) s') ∧
      ∀ packet status s', Step s (.stored packet status) s' → ∀ i ∈ slots numRxDesc s.tail waiting.length,
        i ≠ s.head ∧ s'.mem.bytes (s.bufs + i * rxBufSize) rxBufSize =
          s.mem.bytes (s.bufs + i * rxBufSize) rxBufSize := by
  obtain ⟨waiting, hqueue, heq⟩ := (queue_init descs mem bufs).run hrun
  refine ⟨waiting, heq, hqueue.drain, fun packet status s' hstep i hi => ?_⟩
  cases hstep with
  | stored hroom hlen hdone =>
    have hne : i ≠ s.head := by
      rw [hqueue.head]
      exact ne_of_mem_of_not_mem hi (next_not_mem_slots hqueue.room)
    exact ⟨hne, hqueue.store_bytes hne hlen (Nat.le_refl _)⟩

/-- The card has room while fewer than 31 packets wait. -/
theorem Queue.not_full (h : Queue s waiting) (hlen : waiting.length < numRxDesc - 1) : s.head ≠ s.rdt := by
  have htail := h.tail_lt
  rw [h.head, h.rdt]
  unfold numRxDesc at *
  omega

theorem Queue.full (h : Queue s waiting) (hlen : waiting.length = numRxDesc - 1) : s.head = s.rdt := by
  rw [h.head, h.rdt, hlen]

/-- The card stores packets until 31 wait. -/
theorem Queue.fill (h : Queue s waiting) (packets : List (List UInt8))
    (hfit : ∀ packet ∈ packets, packet.length ≤ rxBufSize)
    (hroom : waiting.length + packets.length < numRxDesc) :
    ∃ s', Run Step s (packets.map (fun packet => .stored packet 1)) s' ∧ Queue s' (waiting ++ packets) := by
  induction packets generalizing s waiting with
  | nil =>
    rw [List.append_nil]
    exact ⟨s, .nil s, h⟩
  | cons packet packets ih =>
    rw [List.length_cons] at hroom
    have hfree := h.not_full (by omega)
    have hlen := hfit packet List.mem_cons_self
    have hdone : (1 : UInt8) &&& statDD ≠ 0 := by decide
    obtain ⟨s', hrun, hqueue⟩ := ih (h.store hfree hlen hdone)
      (fun p hp => hfit p (List.mem_cons_of_mem _ hp))
      (by rw [List.length_append, List.length_singleton]; omega)
    rw [List.append_assoc] at hqueue
    exact ⟨s', .cons (.stored hfree hlen hdone) hrun, hqueue⟩

/-- Packets that fill the ring, one more that the card drops, and two that come in
when the first three have been returned: they go past the end of the ring. -/
theorem receive_fifo_wraps : ∃ s waiting,
    Run Step (init (fun _ => ⟨0, 0, 0⟩) (fun _ => 0) 4096)
      ((List.replicate 30 [(7 : UInt8)] ++ [[8, 9]]).map (fun packet => .stored packet 1) ++ .dropped [0] ::
        ((List.replicate 3 [(7 : UInt8)]).map (fun packet => .received (some packet)) ++
          [[1], [2, 3]].map (fun packet => .stored packet 1))) s ∧
    List.replicate 30 [(7 : UInt8)] ++ [[8, 9], [1], [2, 3]] = List.replicate 3 [7] ++ waiting ∧
    ∃ s', Run Step s (waiting.map (fun packet => .received (some packet)) ++ [.received none]) s' := by
  obtain ⟨s₁, hrun₁, hqueue₁⟩ := (queue_init (fun _ => ⟨0, 0, 0⟩) (fun _ => 0) 4096).fill
    (List.replicate 30 [7] ++ [[8, 9]]) (by decide) (by decide)
  have hdrop : Step s₁ (.dropped [0]) s₁ := .dropped (hqueue₁.full (by decide))
  have hqueue₁ : Queue s₁ (List.replicate 3 [7] ++ (List.replicate 27 [7] ++ [[8, 9]])) := hqueue₁
  obtain ⟨s₂, hrun₂, hqueue₂⟩ := hqueue₁.serve
  obtain ⟨s₃, hrun₃, -⟩ := hqueue₂.fill [[1], [2, 3]] (by decide) (by decide)
  have hrun := hrun₁.append (.cons hdrop (hrun₂.append hrun₃))
  obtain ⟨waiting, heq, hdrain, -⟩ := receive_fifo _ _ _ _ _ hrun
  exact ⟨s₃, waiting, hrun, heq, hdrain⟩

end Rx
end GeckoOS.Drivers.E1000
