import GeckoOS.Net.Stack

/-! Which received packets keep every store inside its buffer and every 16-bit
length from wrapping. -/
namespace GeckoOS.Net
open Lib Stack

def Event.Ok : Event → Prop
  | .store buf off len => off + len ≤ buf.size
  | .sum a b => a + b < 2^16
  | .difference a b => b ≤ a

instance : DecidablePred Event.Ok
  | .store buf off len => inferInstanceAs (Decidable (off + len ≤ buf.size))
  | .sum a b => inferInstanceAs (Decidable (a + b < 2^16))
  | .difference a b => inferInstanceAs (Decidable (b ≤ a))

/-- All events so far are in order. -/
def Stack.Safe (s : Stack) : Prop := ∀ e ∈ s.events, e.Ok

variable (s : Stack)

@[simp] theorem record_safe (es : List Event) : (s.record es).Safe ↔ s.Safe ∧ ∀ e ∈ es, e.Ok := by
  simp [Stack.Safe, record, or_imp, forall_and]

@[simp] theorem record_netIp (es : List Event) : (s.record es).netIp = s.netIp := rfl

/-- A copy, and what comes after it if the bytes fit. -/
theorem copyThen_safe (buf : Buf) (off : Nat) (bytes : List UInt8) {rest : Stack → Stack}
    (hrest : off + bytes.length ≤ buf.size → ∀ u : Stack, (rest u).Safe ↔ u.Safe) :
    (s.copyThen buf off bytes rest).Safe ↔ s.Safe ∧ off + bytes.length ≤ buf.size := by
  have hstore : (s.record [.store buf off bytes.length]).Safe ↔ s.Safe ∧ off + bytes.length ≤ buf.size := by
    rw [record_safe]
    simp [Event.Ok]
  rw [← hstore]
  unfold copyThen
  dsimp only
  split
  · next hfit => exact hrest hfit _
  · exact Iff.rfl

/-- The driver checks the length itself. -/
theorem e1000Send_safe (frame : List UInt8) : (s.e1000Send frame).Safe ↔ s.Safe := by
  unfold Stack.Safe e1000Send
  split
  · simp
  · next h => simpa [or_imp, forall_and, Event.Ok] using fun _ => h

theorem netSendFrame_safe (dst : Mac) (type : Nat) (payload : List UInt8) :
    (s.netSendFrame dst type payload).Safe ↔ s.Safe ∧ 14 + payload.length ≤ Buf.ethTx.size := by
  have hsend : 14 + payload.length ≤ Buf.ethTx.size → ∀ (u : Stack) (frame : List UInt8),
      ((u.record [.sum 14 payload.length]).e1000Send frame).Safe ↔ u.Safe := by
    intro hfit u frame
    have hsum : (Event.sum 14 payload.length).Ok := Nat.lt_of_le_of_lt hfit (by decide)
    rw [e1000Send_safe, record_safe]
    exact and_iff_left fun e he => List.mem_singleton.mp he ▸ hsum
  have hheader : (s.record [.store .ethTx 0 14]).Safe ↔ s.Safe := by
    rw [record_safe]
    simp [Event.Ok, Buf.size]
  rw [netSendFrame, copyThen_safe _ _ _ _ fun hfit u => hsend hfit u _, hheader]

theorem arpPacket_length (op : Nat) (smac tmac : Mac) (sip tip : Nat) :
    (arpPacket op smac sip tmac tip).length = 28 := by
  simp [arpPacket]

private theorem arpSend_safe (dst : Mac) (op : Nat) (smac tmac : Mac) (sip tip : Nat) :
    ((s.record [.store .arpPacket 0 28]).netSendFrame dst etherTypeArp (arpPacket op smac sip tmac tip)).Safe ↔
      s.Safe := by
  rw [netSendFrame_safe, record_safe, arpPacket_length]
  simp [Event.Ok, Buf.size]

theorem cacheSender_safe (ip : UInt32) (mac : Mac) : (s.cacheSender ip mac).Safe ↔ s.Safe := by
  have hset : ∀ i e, ((s.record [.store .cacheMac 0 6]).setEntry i e).Safe ↔ s.Safe := by
    intro i e
    change (s.record [.store .cacheMac 0 6]).Safe ↔ s.Safe
    rw [record_safe]
    simp [Event.Ok, Buf.size]
  unfold cacheSender
  split
  · exact hset _ _
  · split
    · exact hset _ _
    · rfl

/-- Nothing an ARP packet says is used as a length. -/
theorem arpHandle_safe (data : View) : (s.arpHandle data).Safe ↔ s.Safe := by
  have hreply : ∀ c : Prop, [Decidable c] → ((if c then s.arpReply data else s).Safe ↔ s.Safe) := by
    intro c _
    split
    · exact arpSend_safe ..
    · rfl
  unfold arpHandle
  dsimp only
  split
  · rw [cacheSender_safe]; exact hreply _
  · exact hreply _

theorem ipSend_safe (dst : UInt32) (protocol : Nat) (payload : List UInt8) :
    (s.ipSend dst protocol payload).Safe ↔ s.Safe ∧ 20 + payload.length ≤ Buf.ipTx.size := by
  have hheader : (s.record [.sum 20 payload.length, .store .ipTx 0 20]).Safe ∧
    20 + payload.length ≤ Buf.ipTx.size ↔
      s.Safe ∧ 20 + payload.length ≤ Buf.ipTx.size := by
    rw [record_safe]
    simp only [List.forall_mem_cons, List.not_mem_nil, false_implies, implies_true, and_true, Event.Ok,
      Buf.size, and_assoc]
    refine and_congr_right fun _ => ?_
    omega
  unfold ipSend
  dsimp only
  rw [copyThen_safe _ _ _ _ fun hfit u => ?_, hheader]
  have hchecksum : (u.record [.store .ipTx 10 2]).Safe ↔ u.Safe := by
    rw [record_safe]
    simp [Event.Ok, Buf.size]
  have htake : add16 20 payload.length ≤ 20 + payload.length := by unfold add16; omega
  split
  · rw [netSendFrame_safe, record_safe, hchecksum]
    simp only [List.forall_mem_cons, List.not_mem_nil, false_implies, implies_true, and_true,
      Event.Ok, Buf.size, List.length_take, and_assoc] at hfit ⊢
    refine and_iff_left ⟨Nat.le_refl 6, ?_⟩
    omega
  · rw [arpRequest, arpSend_safe, hchecksum]

/-- An echo request is answered safely exactly if its length covers the header
and fits the reply buffer. -/
theorem icmpHandle_safe (src : UInt32) (data : View) {len : Nat} (hlen : len < 2^16) :
    (s.icmpHandle src data len).Safe ↔ s.Safe ∧
    (data 0 = icmpEchoRequest → 8 ≤ len ∧ len ≤ Buf.reply.size) := by
  unfold icmpHandle
  by_cases hreq : data 0 = icmpEchoRequest
  · have hheader : (s.record [.difference len 8, .store .reply 0 8]).Safe ↔ s.Safe ∧ 8 ≤ len := by
      rw [record_safe]
      simp [Event.Ok, Buf.size]
    rw [if_pos hreq]
    dsimp only
    rw [copyThen_safe _ _ _ _ fun hfit u => ?_, hheader, View.bytes_length, and_assoc]
    · refine and_congr_right fun _ => ?_
      simp only [hreq, forall_const, Buf.size]
      refine and_congr_right fun h8 => ?_
      rw [sub16_eq hlen h8]
      omega
    · rw [View.bytes_length] at hfit
      have hle : add16 8 (sub16 len 8) ≤ 8 + sub16 len 8 := by unfold add16; omega
      rw [ipSend_safe, record_safe]
      simp only [List.forall_mem_cons, List.not_mem_nil, false_implies, implies_true, and_true,
        Event.Ok, Buf.size, List.length_take] at hfit ⊢
      rw [and_assoc]
      exact and_iff_left (by omega)
  · rw [if_neg hreq]
    split <;> simp [Stack.Safe, hreq]

/-- An IPv4 packet of ours: no length in it leads outside a buffer. -/
def IpLengthsOk (data : View) : Prop :=
  ipIhl data * 4 ≤ ipTotalLength data ∧
    ((data 9).toNat = ipProtoIcmp → data 20 = icmpEchoRequest →
      8 ≤ ipTotalLength data - ipIhl data * 4 ∧ ipTotalLength data - ipIhl data * 4 ≤ Buf.reply.size)

theorem ipHandle_safe (data : View) :
    (s.ipHandle data).Safe ↔ s.Safe ∧ (ipVersion data = 4 → ipAt data 16 = s.netIp → IpLengthsOk data) := by
  have htot : ipTotalLength data < 2^16 := bswap16_lt _
  unfold ipHandle
  by_cases hv : ipVersion data = 4
  · by_cases hd : ipAt data 16 = s.netIp
    · rw [if_neg (not_not_intro hv), if_neg (not_not_intro hd)]
      simp only [hv, hd, forall_const, IpLengthsOk]
      by_cases hle : ipIhl data * 4 ≤ ipTotalLength data
      · rw [sub16_eq htot hle]
        split
        · next hp =>
          rw [icmpHandle_safe _ _ _ (by omega), record_safe]
          simp [Event.Ok, View.shift, hp, hle]
        · next hp => simp [Event.Ok, hp, hle]
      · have hbad : ∀ u : Stack,
          (u.Safe → (s.record [.difference (ipTotalLength data) (ipIhl data * 4)]).Safe) →
            ¬ u.Safe := fun u hu h => hle (by simpa [Event.Ok] using ((record_safe s _).mp (hu h)).2)
        simp only [hle, false_and, and_false, iff_false]
        split
        · exact hbad _ fun h => ((icmpHandle_safe _ _ _ (by unfold sub16; omega)).mp h).1
        · exact hbad _ id
    · rw [if_neg (not_not_intro hv), if_pos hd]
      simp [hd]
  · rw [if_pos hv]
    simp [hv]

/-- Handling a frame keeps every store inside its buffer and every length from
wrapping exactly if the frame is no IPv4 packet for our address, or its total
length covers its header and, for an echo request, leaves between 8 and 1024
bytes. -/
theorem handle_packet_safe_iff (data : View) (len : UInt16) :
    (s.netHandlePacket data len).Safe ↔ s.Safe ∧
      (14 ≤ len.toNat → s.forUs data → bswap16 (data.load16 12) = etherTypeIpv4 →
        ipVersion (data.shift 14) = 4 → ipAt (data.shift 14) 16 = s.netIp → IpLengthsOk (data.shift 14)) := by
  unfold netHandlePacket
  by_cases hlen : len.toNat < 14
  · rw [if_pos hlen]
    simp [show ¬ 14 ≤ len.toNat by omega]
  · rw [if_neg hlen]
    have h14 : 14 ≤ len.toNat := by omega
    by_cases hus : s.forUs data = true
    · rw [if_neg (by simp [hus])]
      dsimp only
      split
      · next harp =>
        rw [arpHandle_safe, record_safe]
        simp [Event.Ok, h14, harp, etherTypeArp, etherTypeIpv4]
      · split
        · next hip =>
          rw [ipHandle_safe, record_safe]
          simp [Event.Ok, h14, hus, hip]
        · next hip => simp [hip]
    · rw [if_pos (by simp [hus])]
      simp [hus]

/-- A ping with 1024 bytes of data, to 10.0.2.15 and all Ethernet stations. -/
def bigEcho : View := fun i =>
  ([0xFF, 0xFF, 0xFF, 0xFF, 0xFF, 0xFF, 2, 0, 0, 0, 0, 1, 0x08, 0x00,
    0x45, 0, 0x04, 0x1C, 0, 0, 0x40, 0, 64, 1, 0, 0, 10, 0, 2, 2, 10, 0, 2, 15,
    8, 0, 0, 0, 0, 1, 0, 1] : List UInt8).getD i 0

/-- Its reply has 1032 bytes. -/
theorem big_echo_overruns :
    ¬ ∀ (s : Stack) (data : View) (len : UInt16), s.Safe → len.toNat ≤ 2048 →
    (s.netHandlePacket data len).Safe := by
  intro h
  have hs := h ⟨0x0A00020F, fun _ => 0x52, fun _ => ⟨0, fun _ => 0, false⟩, false, [], [], none⟩ bigEcho 1066
    (fun _ he => absurd he List.not_mem_nil) (by decide)
  rw [netHandlePacket, if_neg (by decide), if_neg (by decide)] at hs
  dsimp only at hs
  rw [if_neg (by decide), if_pos (by decide), ipHandle_safe] at hs
  exact absurd ((hs.2 (by decide) (by decide)).2 (by decide) (by decide)).2 (by decide)

end GeckoOS.Net
