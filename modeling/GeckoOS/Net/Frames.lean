import GeckoOS.Net.Replies

/-! The frames that a stack sends, and what a stack does that receives one of them
at the start of a buffer, whatever stands behind it. -/
namespace GeckoOS.Net
open Lib Stack

variable {s t : Stack} {data p : View} {len : UInt16} {dst mac : Mac} {ip : UInt32} {payload : List UInt8}

/-- The received bytes begin with the frame; padding may follow. -/
structure Carries (frame : List UInt8) (data : View) (len : UInt16) : Prop where
  length : frame.length ≤ len.toNat
  agree : Agree frame.length (.ofBytes frame) data

def arpFrame (s : Stack) (op : Nat) (dst target : Mac) (targetIp : Nat) : List UInt8 :=
  ethHead s dst etherTypeArp ++ arpPacket op s.netMac (bswap32 s.netIp.toNat) target targetIp

def requestFrame (s : Stack) (ip : UInt32) : List UInt8 :=
  arpFrame s arpOpRequest macBroadcast (fun _ => 0) (bswap32 ip.toNat)

/-- The asker's address is in host order. -/
def answerFrame (s : Stack) (mac : Mac) (ip : UInt32) : List UInt8 := arpFrame s arpOpReply mac mac ip.toNat

def messageFrame (s : Stack) (mac : Mac) (ip : UInt32) (message : List UInt8) : List UInt8 :=
  ethHead s mac etherTypeIpv4 ++ (ipHead s ip ipProtoIcmp message.length ++ message)

/-- The messages of an echo request and of its reply. -/
def pingMessage (id seq : UInt16) : List UInt8 := echoMessage id seq (checksum (echoMessage id seq 0))
def pongMessage (id seq : UInt16) : List UInt8 := echoPacket (.ofBytes (pingMessage id seq)) 20

/-! ### Words on the wire -/

theorem bswap32_lt (x : Nat) : bswap32 x < 2^32 := by
  have hlow := bswap16_lt (x % 2^16)
  have hhigh := bswap16_lt (x / 2^16)
  rw [bswap32]
  omega

/-- The word is read as it stands, and swapped once. -/
theorem bswap32_load32 (p : View) (o : Nat) : bswap32 (p.load32 o) = (ipAt p o).toNat := by
  rw [ipAt, UInt32.toNat_ofNat', Nat.mod_eq_of_lt (bswap32_lt _)]

/-! ### The Ethernet header -/

/-- A station takes frames to a destination each byte of which is its own or 0xFF. -/
def Accepts (s : Stack) (dst : Mac) : Prop := ∀ i, dst i = s.netMac i ∨ dst i = 0xFF

instance (s : Stack) (dst : Mac) : Decidable (Accepts s dst) := inferInstanceAs (Decidable (∀ _, _))

theorem accepts_self (s : Stack) : Accepts s s.netMac := fun _ => .inl rfl

theorem accepts_broadcast (s : Stack) : Accepts s macBroadcast := fun _ => .inr rfl

theorem forUs_iff (s : Stack) (data : View) : s.forUs data = true ↔ Accepts s (macAt data 0) := by
  unfold forUs Accepts macAt
  simp [List.mem_finRange]

theorem ethHead_carried {type : Nat} (ht : type < 2^16) (h : Carries (ethHead t dst type ++ payload) data len) :
    ¬ len.toNat < 14 ∧ (s.forUs data = true ↔ Accepts s dst) ∧ bswap16 (data.load16 12) = type ∧
      Agree payload.length (.ofBytes payload) (data.shift 14) := by
  have hlong : (ethHead t dst type ++ payload).length = 14 + payload.length := by
    rw [List.length_append, ethHead_length]
  have hlength := h.length
  have hagree := h.agree
  rw [hlong] at hlength hagree
  have hframed := framed t dst ht payload
  refine ⟨by omega, ?_, ?_, ?_⟩
  · rw [hagree.forUs (by omega), forUs_iff, hframed.dst]
  · rw [hagree.load16 (by omega), hframed.type]
  · have hshift := hagree.shift 14
    rw [shift_frame, Nat.add_sub_cancel_left] at hshift
    exact hshift

theorem handle_arp (h : Carries (ethHead t dst etherTypeArp ++ payload) data len) :
    (s.netHandlePacket data len).effect =
      if Accepts s dst then (s.arpHandle (data.shift 14)).effect else s.effect := by
  obtain ⟨hlong, hours, htype, -⟩ := ethHead_carried (s := s) (by decide) h
  unfold netHandlePacket
  rw [if_neg hlong]
  by_cases hdst : Accepts s dst
  · rw [hours.mpr hdst, if_neg (by decide), if_pos hdst]
    dsimp only
    rw [htype, if_pos rfl]
    exact arpHandle_record ..
  · rw [if_neg hdst, Bool.eq_false_iff.mpr (mt hours.mp hdst)]
    rfl

theorem handle_ip (h : Carries (ethHead t dst etherTypeIpv4 ++ payload) data len) :
    (s.netHandlePacket data len).effect =
      if Accepts s dst then (s.ipHandle (data.shift 14)).effect else s.effect := by
  obtain ⟨hlong, hours, htype, -⟩ := ethHead_carried (s := s) (by decide) h
  have harp : etherTypeIpv4 ≠ etherTypeArp := by decide
  unfold netHandlePacket
  rw [if_neg hlong]
  by_cases hdst : Accepts s dst
  · rw [hours.mpr hdst, if_neg (by decide), if_pos hdst]
    dsimp only
    rw [htype, if_neg harp, if_pos rfl]
    exact ipHandle_record ..
  · rw [if_neg hdst, Bool.eq_false_iff.mpr (mt hours.mp hdst)]
    rfl

/-! ### ARP packets -/

/-- The fields of a carried ARP packet. -/
structure ArpFrom (t : Stack) (op : Nat) (target : List UInt8) (p : View) : Prop where
  op : bswap16 (p.load16 6) = op
  senderMac : macAt p 8 = t.netMac
  senderIp : ipAt p 14 = t.netIp
  target : p.bytes 24 4 = target

theorem arpFrom {op : Nat} (hop : op < 2^16) {word : Nat}
    (h : Agree 28 (.ofBytes (arpPacket op t.netMac (bswap32 t.netIp.toNat) mac word)) p) :
    ArpFrom t op (bytes32 word) p := by
  constructor
  · have hload : (View.ofBytes (arpPacket op t.netMac (bswap32 t.netIp.toNat) mac word)).load16 6 =
      bswap16 op :=
      load16_of_bytes rfl rfl (bswap16_lt _)
    rw [h.load16 (by decide), hload, bswap16_bswap16 hop]
  · rw [h.macAt (by decide)]
    funext i
    fin_cases i <;> rfl
  · rw [h.ipAt (by decide)]
    exact ipAt_of_bytes rfl
  · have hbytes : (View.ofBytes (arpPacket op t.netMac (bswap32 t.netIp.toNat) mac word)).bytes 24 4 =
      bytes32 word := rfl
    rw [← hbytes]
    exact View.bytes_congr fun i hi => h (24 + i) (by omega)

theorem arpPacket_carried {op : Nat} {word : Nat} (h : Carries (arpFrame t op dst mac word) data len) :
    Agree 28 (.ofBytes (arpPacket op t.netMac (bswap32 t.netIp.toNat) mac word)) (data.shift 14) := by
  have hlength : (arpPacket op t.netMac (bswap32 t.netIp.toNat) mac word).length = 28 := rfl
  have hagree := (ethHead_carried (s := t) (by decide) h).2.2.2
  rw [hlength] at hagree
  exact hagree

/-- A request or a reply is cached, and a request for our address answered. -/
theorem arpHandle_from {op : Nat} {target : List UInt8} (hop : op = arpOpRequest ∨ op = arpOpReply)
    (h : ArpFrom t op target p) :
    (s.arpHandle p).effect =
      (if op = arpOpRequest ∧ ipAt p 24 = s.netIp then s.sent ++ [answerFrame s t.netMac t.netIp] else s.sent,
        (s.cacheSender t.netIp t.netMac).arpCache, s.replyReceived, s.overrun) := by
  have hword : bswap32 (p.load32 14) = t.netIp.toNat := by rw [bswap32_load32, h.senderIp]
  have hreply : (s.arpReply p).sent = s.sent ++ [answerFrame s t.netMac t.netIp] := by
    have hframe : ethHead s (macAt p 8) etherTypeArp ++ arpAnswer s p = answerFrame s t.netMac t.netIp := by
      rw [arpAnswer, h.senderMac, hword, answerFrame, arpFrame]
    have hlength : add16 14 (arpAnswer s p).length =
      (ethHead s (macAt p 8) etherTypeArp ++ arpAnswer s p).length := by
      have h28 : (arpAnswer s p).length = 28 := rfl
      rw [List.length_append, ethHead_length, h28]
      unfold add16
      rfl
    have hsent : (s.arpReply p).sent = s.sent ++ [ethFrame s (macAt p 8) etherTypeArp (arpAnswer s p)] := rfl
    rw [hsent, ethFrame, hlength, List.take_length, hframe]
  unfold arpHandle
  dsimp only
  rw [h.op, h.senderIp, h.senderMac, if_pos hop]
  by_cases hours : op = arpOpRequest ∧ ipAt p 24 = s.netIp
  · rw [if_pos hours, if_pos hours, ← hreply]
    simp only [Stack.effect, cacheSender_sent, cacheSender_replyReceived, cacheSender_overrun,
      cacheSender_arpCache]
    rfl
  · rw [if_neg hours, if_neg hours]
    simp only [Stack.effect, cacheSender_sent, cacheSender_replyReceived, cacheSender_overrun]

/-- A request is answered by the station it is for, and every station keeps its sender. -/
theorem request_received (h : Carries (requestFrame t ip) data len) :
    (s.netHandlePacket data len).effect =
      (if ip = s.netIp then s.sent ++ [answerFrame s t.netMac t.netIp] else s.sent,
        (s.cacheSender t.netIp t.netMac).arpCache, s.replyReceived, s.overrun) := by
  have hfrom := arpFrom (by decide) (arpPacket_carried h)
  have htarget : ipAt (data.shift 14) 24 = ip := ipAt_of_bytes hfrom.target
  rw [handle_arp h, if_pos (accepts_broadcast s), arpHandle_from (.inl rfl) hfrom, htarget]
  simp only [true_and]

/-- What an answer says of its target is not looked at. -/
theorem answer_received (h : Carries (answerFrame t mac ip) data len) :
    (s.netHandlePacket data len).effect =
      if Accepts s mac then (s.sent, (s.cacheSender t.netIp t.netMac).arpCache, s.replyReceived, s.overrun)
      else s.effect := by
  have hfrom := arpFrom (by decide) (arpPacket_carried h)
  have hop : arpOpReply ≠ arpOpRequest := by decide
  rw [handle_arp h, arpHandle_from (.inr rfl) hfrom]
  simp only [hop, false_and, if_false]

/-! ### Messages -/

/-- The fields of a carried packet with a message of at least one byte. -/
structure MessageFrom (t : Stack) (ip : UInt32) (message : List UInt8) (p : View) : Prop where
  version : ipVersion p = 4
  ihl : ipIhl p = 5
  totalLength : ipTotalLength p = 20 + message.length
  protocol : (p 9).toNat = ipProtoIcmp
  src : ipAt p 12 = t.netIp
  dst : ipAt p 16 = ip
  agree : Agree message.length (.ofBytes message) (p.shift 20)

theorem messageFrom {message : List UInt8} (hfit : message.length < 2^16 - 34)
    (h : Carries (messageFrame t mac ip message) data len) : MessageFrom t ip message (data.shift 14) := by
  obtain ⟨-, -, -, hpayload⟩ := ethHead_carried (s := t) (by decide) h
  have hlength : (ipHead t ip ipProtoIcmp message.length ++ message).length = 20 + message.length := by
    rw [List.length_append, ipHead_length]
  have hadd : add16 20 message.length = 20 + message.length := by
    unfold add16
    omega
  rw [hlength] at hpayload
  have htotal : (View.ofBytes (ipHead t ip ipProtoIcmp message.length ++ message)).load16 2 =
      bswap16 (add16 20 message.length) := load16_of_bytes rfl rfl (bswap16_lt _)
  constructor
  · rw [ipVersion, hpayload 0 (by omega)]
    exact (by decide : (0x45 : UInt8).toNat / 16 = 4)
  · rw [ipIhl, hpayload 0 (by omega)]
    exact (by decide : (0x45 : UInt8).toNat % 16 = 5)
  · rw [ipTotalLength, hpayload.load16 (by omega), htotal, hadd, bswap16_bswap16 (by omega)]
  · rw [hpayload 9 (by omega)]
    rfl
  · rw [hpayload.ipAt (by omega)]
    exact ipAt_of_bytes rfl
  · rw [hpayload.ipAt (by omega)]
    exact ipAt_of_bytes rfl
  · have hshift := hpayload.shift 20
    rw [View.shift_ofBytes, ← ipHead_length (s := t) ip ipProtoIcmp message.length, List.drop_left,
      ipHead_length, Nat.add_sub_cancel_left] at hshift
    exact hshift

theorem pingMessage_length (id seq : UInt16) : (pingMessage id seq).length = 20 := by
  rfl

theorem pongMessage_length (id seq : UInt16) : (pongMessage id seq).length = 20 :=
  echoPacket_length _ (by decide)

/-- The type of a pong. -/
theorem pongMessage_type (id seq : UInt16) : View.ofBytes (pongMessage id seq) 0 = icmpEchoReply := by
  obtain ⟨check, hpacket, -⟩ := echoPacket_eq (.ofBytes (pingMessage id seq)) (n := 12) (by decide)
  have hpong : pongMessage id seq = echoPacket (.ofBytes (pingMessage id seq)) (8 + 12) := rfl
  rw [hpong, hpacket]
  rfl

/-- A packet is only looked at by the station with its addresses. -/
theorem message_received {message : List UInt8}
    {e : List (List UInt8) × (Fin 16 → ArpEntry) × Bool × Option (Buf × List UInt8)}
    (hfit : message.length < 2^16 - 34) (h : Carries (messageFrame t mac ip message) data len)
    (hours : ∀ p, MessageFrom t ip message p → ForIcmp s p → (s.ipHandle p).effect = e) :
    (s.netHandlePacket data len).effect = if Accepts s mac ∧ ip = s.netIp then e else s.effect := by
  have hfrom := messageFrom hfit h
  rw [handle_ip h]
  by_cases hmac : Accepts s mac
  · rw [if_pos hmac]
    by_cases hip : ip = s.netIp
    · rw [if_pos ⟨hmac, hip⟩]
      exact hours _ hfrom ⟨hfrom.version, hfrom.dst.trans hip, hfrom.protocol⟩
    · rw [if_neg fun hboth => hip hboth.2]
      apply ipHandle_other
      intro hicmp
      exact hip (hfrom.dst.symm.trans hicmp.2.1)
  · rw [if_neg hmac, if_neg fun hboth => hmac hboth.1]

theorem MessageFrom.icmpLength {message : List UInt8} (h : MessageFrom t ip message p)
    (hfit : message.length < 2^16 - 34) :
    icmpLength p = message.length := by
  have hlt : 20 + message.length < 2^16 := by omega
  rw [Net.icmpLength, h.totalLength, h.ihl, sub16_eq hlt (Nat.le_add_right _ _), Nat.add_sub_cancel_left]

theorem MessageFrom.type {message : List UInt8} (h : MessageFrom t ip message p) (hpos : 0 < message.length) :
    p 20 = View.ofBytes message 0 := h.agree 0 hpos

/-- The reply goes back to the sender. -/
theorem ping_received {id seq : UInt16} (h : Carries (messageFrame t mac ip (pingMessage id seq)) data len) :
    (s.netHandlePacket data len).effect =
      if Accepts s mac ∧ ip = s.netIp then
        (s.sent ++ [ipFrame s t.netIp ipProtoIcmp (pongMessage id seq)], s.arpCache, s.replyReceived, s.overrun)
      else s.effect := by
  have hlength := pingMessage_length id seq
  apply message_received (by rw [hlength]; decide) h
  intro p hfrom hicmp
  have hpong : echoPacket (p.shift 20) 20 = pongMessage id seq := by
    rw [pongMessage, echoPacket_eq_iff _ _ (by decide)]
    have hagree := hfrom.agree
    rw [hlength] at hagree
    exact View.bytes_congr fun i hi => hagree (4 + i) (by omega)
  have hfit : 8 + sub16 20 8 ≤ Buf.reply.size := by
    rw [sub16_eq (by decide) (by decide)]
    decide
  have htype : p 20 = icmpEchoRequest := hfrom.type (by rw [hlength]; decide)
  rw [ipHandle_icmp hicmp, if_pos htype, hfrom.icmpLength (by rw [hlength]; decide), hlength, hpong, hfrom.src,
    if_pos hfit]

theorem pong_received {id seq : UInt16} (h : Carries (messageFrame t mac ip (pongMessage id seq)) data len) :
    (s.netHandlePacket data len).effect =
      if Accepts s mac ∧ ip = s.netIp then (s.sent, s.arpCache, true, s.overrun) else s.effect := by
  have hlength := pongMessage_length id seq
  have hother : icmpEchoReply ≠ icmpEchoRequest := by decide
  apply message_received (by rw [hlength]; decide) h
  intro p hfrom hicmp
  have htype : p 20 = icmpEchoReply := (hfrom.type (by rw [hlength]; decide)).trans (pongMessage_type id seq)
  rw [ipHandle_icmp hicmp, htype, if_neg hother, if_pos rfl]

/-! ### Own frames -/

theorem arpFrame_length (s : Stack) (op : Nat) (dst target : Mac) (word : Nat) :
    (arpFrame s op dst target word).length = add16 14 28 := by
  have h28 : (arpPacket op s.netMac (bswap32 s.netIp.toNat) target word).length = 28 := rfl
  rw [arpFrame, List.length_append, ethHead_length, h28]
  unfold add16
  rfl

theorem arpRequest_effect (s : Stack) (ip : UInt32) :
    (s.arpRequest ip).effect = (s.sent ++ [requestFrame s ip], s.arpCache, s.replyReceived, s.overrun) := by
  have hwhole : (requestFrame s ip).take (add16 14 28) = requestFrame s ip :=
    List.take_of_length_le (Nat.le_of_eq (arpFrame_length ..))
  have hsent : (s.arpRequest ip).sent = s.sent ++ [(requestFrame s ip).take (add16 14 28)] := rfl
  rw [hwhole] at hsent
  exact Prod.ext hsent rfl

/-- A packet goes to the hardware address that its destination resolves to; without one it
is dropped, and a request takes its place. -/
theorem ipFrame_eq (s : Stack) (ip : UInt32) {message : List UInt8} (hfit : message.length < 2^16 - 34) :
    ipFrame s ip ipProtoIcmp message =
      (s.arpResolve ip).elim (requestFrame s ip) fun mac => messageFrame s mac ip message := by
  cases hmac : s.arpResolve ip with
  | some mac =>
    rw [ipFrame_whole hmac ipProtoIcmp hfit]
    rfl
  | none =>
    have hrequest : ipFrame s ip ipProtoIcmp message = (requestFrame s ip).take (add16 14 28) := by
      rw [ipFrame, hmac]
      rfl
    rw [hrequest]
    exact List.take_of_length_le (Nat.le_of_eq (arpFrame_length ..))

theorem icmpSendEchoRequest_effect (s : Stack) (ip : UInt32) (id seq : UInt16) :
    (s.icmpSendEchoRequest ip id seq).effect = (s.sent ++
      [ipFrame s ip ipProtoIcmp (pingMessage id seq)], s.arpCache, s.replyReceived, s.overrun) :=
        ipSend_effect _ _ (Nat.le_of_ble_eq_true rfl)

theorem arpFrame_lt (s : Stack) (op : Nat) (dst target : Mac) (word : Nat) :
    (arpFrame s op dst target word).length < 2^16 := by
  rw [arpFrame_length]
  unfold add16
  exact Nat.mod_lt _ (by decide)

theorem messageFrame_lt (s : Stack) (mac : Mac) (ip : UInt32) {message : List UInt8}
    (hlength : message.length = 20) :
    (messageFrame s mac ip message).length < 2^16 := by
  rw [messageFrame, List.length_append, List.length_append, ethHead_length, ipHead_length, hlength]
  decide

/-! ### Addresses and bounds -/

/-- The same station at another time. -/
structure SameStation (s t : Stack) : Prop where
  ip : s.netIp = t.netIp
  mac : s.netMac = t.netMac

namespace SameStation

theorem requestFrame (h : SameStation s t) (ip : UInt32) : requestFrame s ip = requestFrame t ip := by
  simp only [Net.requestFrame, arpFrame, ethHead, h.ip, h.mac]

theorem answerFrame (h : SameStation s t) (mac : Mac) (ip : UInt32) :
    answerFrame s mac ip = answerFrame t mac ip := by
  simp only [Net.answerFrame, arpFrame, ethHead, h.ip, h.mac]

theorem messageFrame (h : SameStation s t) (mac : Mac) (ip : UInt32) (message : List UInt8) :
    messageFrame s mac ip message = messageFrame t mac ip message := by
  simp only [Net.messageFrame, ethHead, ipHead, ipHeader, h.ip, h.mac]

end SameStation

theorem cacheSender_same (s : Stack) (ip : UInt32) (mac : Mac) : SameStation (s.cacheSender ip mac) s := by
  unfold cacheSender
  split
  · exact ⟨rfl, rfl⟩
  · split
    · exact ⟨rfl, rfl⟩
    · exact ⟨rfl, rfl⟩

theorem arpHandle_same (s : Stack) (p : View) : SameStation (s.arpHandle p) s := by
  have hreply : ∀ c : Prop, [Decidable c] → SameStation (if c then s.arpReply p else s) s := by
    intro c _
    split
    · exact ⟨rfl, rfl⟩
    · exact ⟨rfl, rfl⟩
  unfold arpHandle
  dsimp only
  split
  · have hcache := cacheSender_same
      (if bswap16 (p.load16 6) = arpOpRequest ∧ ipAt p 24 = s.netIp then s.arpReply p else s)
      (ipAt p 14) (macAt p 8)
    exact ⟨hcache.ip.trans (hreply _).ip, hcache.mac.trans (hreply _).mac⟩
  · exact hreply _

theorem SameStation.record {u : Stack} (h : SameStation u s) (es : List Event) :
    SameStation (u.record es) s := ⟨h.ip, h.mac⟩

/-- A copy changes no address, and what comes after it is done by the same station. -/
theorem copyThen_same {u : Stack} (hu : SameStation u s) (buf : Buf) (off : Nat) (bytes : List UInt8)
    {rest : Stack → Stack}
    (hrest : ∀ v, SameStation v s → SameStation (rest v) s) : SameStation
      (u.copyThen buf off bytes rest) s := by
  unfold copyThen
  dsimp only
  split
  · exact hrest _ ⟨hu.ip, hu.mac⟩
  · exact ⟨hu.ip, hu.mac⟩

theorem netSendFrame_same {u : Stack} (hu : SameStation u s) (dst : Mac) (type : Nat) (payload : List UInt8) :
    SameStation (u.netSendFrame dst type payload) s := by
  unfold netSendFrame
  dsimp only
  exact copyThen_same (hu.record _) _ _ _ fun v hv => ⟨hv.ip, hv.mac⟩

theorem ipSend_same {u : Stack} (hu : SameStation u s) (ip : UInt32) (protocol : Nat) (message : List UInt8) :
    SameStation (u.ipSend ip protocol message) s := by
  unfold ipSend
  dsimp only
  refine copyThen_same (hu.record _) _ _ _ fun v hv => ?_
  split
  · exact netSendFrame_same ((hv.record _).record _) _ _ _
  · exact netSendFrame_same ((hv.record _).record _) _ _ _

theorem ipHandle_same (s : Stack) (p : View) : SameStation (s.ipHandle p) s := by
  have hicmp : ∀ (u : Stack) (ip : UInt32) (m : View) (n : Nat), SameStation u s →
    SameStation (u.icmpHandle ip m n) s := by
    intro u ip m n hu
    unfold icmpHandle
    split
    · exact copyThen_same (hu.record _) _ _ _ fun v hv => ipSend_same (hv.record _) _ _ _
    · split
      · exact ⟨hu.ip, hu.mac⟩
      · exact hu
  unfold ipHandle
  split
  · exact ⟨rfl, rfl⟩
  · split
    · exact ⟨rfl, rfl⟩
    · dsimp only
      split
      · exact hicmp _ _ _ _ ⟨rfl, rfl⟩
      · exact ⟨rfl, rfl⟩

theorem netHandlePacket_same (s : Stack) (data : View) (len : UInt16) :
    SameStation (s.netHandlePacket data len) s := by
  unfold netHandlePacket
  split
  · exact ⟨rfl, rfl⟩
  · split
    · exact ⟨rfl, rfl⟩
    · dsimp only
      split
      · have harp := arpHandle_same (s.record [.difference len.toNat 14]) (data.shift 14)
        exact ⟨harp.ip, harp.mac⟩
      · split
        · have hip := ipHandle_same (s.record [.difference len.toNat 14]) (data.shift 14)
          exact ⟨hip.ip, hip.mac⟩
        · exact ⟨rfl, rfl⟩

theorem arpRequest_safe (hs : s.Safe) (ip : UInt32) : (s.arpRequest ip).Safe := by
  have hlength : (arpPacket arpOpRequest s.netMac (bswap32 s.netIp.toNat) (fun _ => 0)
    (bswap32 ip.toNat)).length = 28 := rfl
  rw [arpRequest, netSendFrame_safe, record_safe, hlength]
  simp [Event.Ok, Buf.size, hs]

theorem icmpSendEchoRequest_safe (hs : s.Safe) (ip : UInt32) (id seq : UInt16) :
    (s.icmpSendEchoRequest ip id seq).Safe := by
  rw [icmpSendEchoRequest, ipSend_safe]
  exact ⟨hs, by rw [← pingMessage, pingMessage_length]; decide⟩

/-- The handlers stay in bounds if the lengths that an IPv4 packet states are in order. -/
theorem netHandlePacket_safe (hs : s.Safe)
    (h : bswap16 (data.load16 12) = etherTypeIpv4 → IpLengthsOk (data.shift 14)) :
    (s.netHandlePacket data len).Safe := by
  unfold netHandlePacket
  split
  · exact hs
  · next hlong =>
    have hrecord : (s.record [.difference len.toNat 14]).Safe := by
      rw [record_safe]
      refine ⟨hs, fun e he => ?_⟩
      rw [List.mem_singleton] at he
      subst he
      exact Nat.le_of_not_lt hlong
    split
    · exact hs
    · dsimp only
      split
      · exact (arpHandle_safe _ _).mpr hrecord
      · split
        · next htype => exact (ipHandle_safe _ _).mpr ⟨hrecord, fun _ _ => h htype⟩
        · exact hs

theorem arpFrame_safe (hs : s.Safe) {op : Nat} {target : Mac} {word : Nat}
    (h : Carries (arpFrame t op dst target word) data len) :
    (s.netHandlePacket data len).Safe := by
  apply netHandlePacket_safe hs
  intro htype
  rw [(ethHead_carried (s := s) (by decide) h).2.2.1] at htype
  exact absurd htype (by decide)

theorem messageFrame_safe (hs : s.Safe) {message : List UInt8} (hlength : message.length = 20)
    (h : Carries (messageFrame t mac ip message) data len) : (s.netHandlePacket data len).Safe := by
  apply netHandlePacket_safe hs
  intro _
  have hfrom := messageFrom (by rw [hlength]; decide) h
  rw [IpLengthsOk, hfrom.totalLength, hfrom.ihl, hlength]
  exact ⟨by decide, fun _ _ => by decide⟩

end GeckoOS.Net
