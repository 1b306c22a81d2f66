import GeckoOS.Net.ArpCache
import GeckoOS.Net.Checksum
import Mathlib.Tactic.FinCases

/-! What the answers to ARP requests and to pings say, read back from their frames. -/
namespace GeckoOS.Net
open Lib Stack

variable {s : Stack} {data p : View} {mac : Mac} {x : Nat}

/-! ### Fields -/

theorem load16_of_bytes {o : Nat} (h₀ : p o = .ofNat x) (h₁ : p (o + 1) = .ofNat (x / 2^8))
    (hx : x < 2^16) : p.load16 o = x := by
  rw [View.load16, h₀, h₁, UInt8.toNat_ofNat', UInt8.toNat_ofNat']
  omega

private theorem bswap16_digits {a b : Nat} (ha : a < 2^8) (hb : b < 2^8) :
    bswap16 (a + 2^8 * b) = b + 2^8 * a := by
  unfold bswap16
  omega

private theorem bytes16_digits {a b : Nat} (ha : a < 2^8) (r : Nat) :
    bytes16 (a + 2^8 * b + 2^16 * r) = [.ofNat a, .ofNat b] := by
  have hlow : UInt8.ofNat (a + 2^8 * b + 2^16 * r) = .ofNat a := by
    rw [← UInt8.toNat_inj, UInt8.toNat_ofNat', UInt8.toNat_ofNat']
    omega
  have hhigh : UInt8.ofNat ((a + 2^8 * b + 2^16 * r) / 2^8) = .ofNat b := by
    have hdiv : (a + 2^8 * b + 2^16 * r) / 2^8 = b + 2^8 * r := by omega
    rw [hdiv, ← UInt8.toNat_inj, UInt8.toNat_ofNat', UInt8.toNat_ofNat']
    omega
  rw [bytes16, hlow, hhigh]

/-- A 32-bit word in network order. -/
theorem bytes32_digits {a b c d : Nat} (ha : a < 2^8) (hb : b < 2^8) (hc : c < 2^8) (hd : d < 2^8) :
    bytes32 (bswap32 (a + 2^8 * b + 2^16 * c + 2^24 * d)) = [.ofNat d, .ofNat c, .ofNat b, .ofNat a] := by
  have hlow : (a + 2^8 * b + 2^16 * c + 2^24 * d) % 2^16 = a + 2^8 * b := by omega
  have hhigh : (a + 2^8 * b + 2^16 * c + 2^24 * d) / 2^16 = c + 2^8 * d := by omega
  have hswap : bswap32 (a + 2^8 * b + 2^16 * c + 2^24 * d) = d + 2^8 * c + 2^16 * (b + 2^8 * a + 2^16 * 0) := by
    rw [bswap32, hlow, hhigh, bswap16_digits ha hb, bswap16_digits hc hd]
    omega
  have htop : (d + 2^8 * c + 2^16 * (b + 2^8 * a + 2^16 * 0)) / 2^16 = b + 2^8 * a + 2^16 * 0 := by omega
  rw [hswap, bytes32, htop, bytes16_digits hd, bytes16_digits hb]
  rfl

theorem bytes32_ip (ip : UInt32) : bytes32 (bswap32 ip.toNat) =
    [ipByte ip 0, ipByte ip 1, ipByte ip 2, ipByte ip 3] := by
  have hlt := ip.toNat_lt
  have hdigits : ip.toNat = ip.toNat % 2^8 + 2^8 * (ip.toNat / 2^8 % 2^8) + 2^16 * (ip.toNat / 2^16 % 2^8) +
      2^24 * (ip.toNat / 2^24 % 2^8) := by omega
  have hbyte : ∀ x : Nat, UInt8.ofNat (x % 2^8) = .ofNat x := fun x => by
    rw [← UInt8.toNat_inj, UInt8.toNat_ofNat', UInt8.toNat_ofNat', Nat.mod_mod]
  rw [hdigits, bytes32_digits (Nat.mod_lt _ (by decide)) (Nat.mod_lt _ (by decide)) (Nat.mod_lt _ (by decide))
    (Nat.mod_lt _ (by decide)), hbyte, hbyte, hbyte, hbyte]
  simp [ipByte]

theorem ipAt_of_bytes {o : Nat} {ip : UInt32} (h : p.bytes o 4 = bytes32 (bswap32 ip.toNat)) :
    ipAt p o = ip := by
  rw [bytes32_ip] at h
  have hbytes : [p o, p (o + 1), p (o + 2), p (o + 3)] =
    [ipByte ip 0, ipByte ip 1, ipByte ip 2, ipByte ip 3] := h
  simp only [List.cons.injEq, and_true] at hbytes
  rw [ipAt_eq_iff, forall_lt_four]
  exact hbytes

/-- The word that is stored for an address that was read in wire order: its bytes are turned around. -/
theorem bytes32_turned (data : View) (o : Nat) :
    bytes32 (bswap32 (data.load32 o)) = [data (o + 3), data (o + 2), data (o + 1), data o] := by
  have hload : data.load32 o = (data o).toNat + 2^8 * (data (o + 1)).toNat + 2^16 * (data (o + 2)).toNat +
      2^24 * (data (o + 3)).toNat := by
    unfold View.load32 View.load16
    rw [show o + 2 + 1 = o + 3 from rfl]
    omega
  rw [hload, bytes32_digits (data o).toNat_lt (data (o + 1)).toNat_lt (data (o + 2)).toNat_lt
    (data (o + 3)).toNat_lt]
  simp only [UInt8.ofNat_toNat]

/-! ### Frames -/

/-- The header of an Ethernet frame. -/
structure Framed (frame : List UInt8) (dst src : Mac) (type : Nat) : Prop where
  dst : macAt (.ofBytes frame) 0 = dst
  src : macAt (.ofBytes frame) 6 = src
  type : bswap16 ((View.ofBytes frame).load16 12) = type

theorem framed (s : Stack) (dst : Mac) {type : Nat} (ht : type < 2^16) (payload : List UInt8) :
    Framed (ethHead s dst type ++ payload) dst s.netMac type := by
  constructor
  · funext i
    fin_cases i <;> rfl
  · funext i
    fin_cases i <;> rfl
  · have hload : (View.ofBytes (ethHead s dst type ++ payload)).load16 12 = bswap16 type :=
      load16_of_bytes rfl rfl (bswap16_lt _)
    rw [hload, bswap16_bswap16 ht]

theorem shift_frame (s : Stack) (dst : Mac) (type : Nat) (payload : List UInt8) :
    (View.ofBytes (ethHead s dst type ++ payload)).shift 14 = View.ofBytes payload := by
  rw [View.shift_ofBytes, ← ethHead_length (s := s) dst type, List.drop_left]

/-! ### ARP -/

/-- A reply that tells the sender of the request at `data` our hardware address. -/
structure ArpAnswer (s : Stack) (data p : View) : Prop where
  hwType : bswap16 (p.load16 0) = 1
  protoType : bswap16 (p.load16 2) = 0x0800
  sizes : p 4 = 6 ∧ p 5 = 4
  op : bswap16 (p.load16 6) = arpOpReply
  senderMac : macAt p 8 = s.netMac
  senderIp : ipAt p 14 = s.netIp
  targetMac : macAt p 18 = macAt data 8
  targetIp : ipAt p 24 = ipAt data 14

def arpAnswer (s : Stack) (data : View) : List UInt8 :=
  arpPacket arpOpReply s.netMac (bswap32 s.netIp.toNat) (macAt data 8) (bswap32 (data.load32 14))

/-- All fields but the last are right. -/
theorem arpAnswer_iff (s : Stack) (data : View) :
    ArpAnswer s data (.ofBytes (arpAnswer s data)) ↔ data 14 = data 17 ∧ data 15 = data 16 := by
  have hword : ∀ {o x : Nat}, x < 2^16 → (View.ofBytes (arpAnswer s data)) o = .ofNat (bswap16 x) →
      (View.ofBytes (arpAnswer s data)) (o + 1) = .ofNat (bswap16 x / 2^8) →
      bswap16 ((View.ofBytes (arpAnswer s data)).load16 o) = x := fun hx h₀ h₁ => by
    rw [load16_of_bytes h₀ h₁ (bswap16_lt _), bswap16_bswap16 hx]
  have htarget : ipAt (.ofBytes (arpAnswer s data)) 24 = ipAt data 14 ↔ data 14 = data 17 ∧
    data 15 = data 16 := by
    have hbytes : (View.ofBytes (arpAnswer s data)).bytes 24 4 = bytes32 (bswap32 (data.load32 14)) := rfl
    rw [bytes32_turned] at hbytes
    have hbytes' : [View.ofBytes (arpAnswer s data) 24, View.ofBytes (arpAnswer s data) 25,
      View.ofBytes (arpAnswer s data) 26, View.ofBytes (arpAnswer s data) 27] =
        [data 17, data 16, data 15, data 14] := hbytes
    simp only [List.cons.injEq, and_true] at hbytes'
    obtain ⟨h₀, h₁, h₂, h₃⟩ := hbytes'
    rw [ipAt_eq_iff, forall_lt_four]
    simp only [Nat.add_zero, Nat.reduceAdd, h₀, h₁, h₂, h₃, ← (ipAt_eq_iff data 14 _).mp rfl 0 (by decide),
      ← (ipAt_eq_iff data 14 _).mp rfl 1 (by decide), ← (ipAt_eq_iff data 14 _).mp rfl 2 (by decide),
      ← (ipAt_eq_iff data 14 _).mp rfl 3 (by decide)]
    constructor
    · rintro ⟨h17, h16, -, -⟩
      exact ⟨h17.symm, h16.symm⟩
    · rintro ⟨h14, h15⟩
      exact ⟨h14.symm, h15.symm, h15, h14⟩
  constructor
  · intro h
    exact htarget.mp h.targetIp
  · intro h
    constructor
    · exact hword (by decide) rfl rfl
    · exact hword (by decide) rfl rfl
    · exact ⟨rfl, rfl⟩
    · exact hword (by decide) rfl rfl
    · funext i
      fin_cases i <;> rfl
    · exact ipAt_of_bytes rfl
    · funext i
      fin_cases i <;> rfl
    · exact htarget.mpr h

theorem arpHandle_sent (hop : bswap16 (data.load16 6) = arpOpRequest) (hours : ipAt data 24 = s.netIp) :
    (s.arpHandle data).sent = s.sent ++ [ethHead s (macAt data 8) etherTypeArp ++ arpAnswer s data] := by
  have hsent : (s.arpReply data).sent =
    s.sent ++ [ethFrame s (macAt data 8) etherTypeArp (arpAnswer s data)] := rfl
  have hlength : add16 14 (arpAnswer s data).length =
    (ethHead s (macAt data 8) etherTypeArp ++ arpAnswer s data).length := by
    rw [List.length_append, ethHead_length]
    have h28 : (arpAnswer s data).length = 28 := rfl
    rw [h28]
    unfold add16
    rfl
  unfold arpHandle
  dsimp only
  rw [if_pos (Or.inl hop), cacheSender_sent, if_pos ⟨hop, hours⟩, hsent, ethFrame, hlength, List.take_length]

/-- The peer puts our address into its cache. -/
theorem arpHandle_answer (peer : Stack) {s : Stack} (hop : bswap16 (p.load16 6) = arpOpReply)
    (hip : ipAt p 14 = s.netIp)
    (hmac : macAt p 8 = s.netMac) :
    (peer.arpHandle p).arpResolve s.netIp = some s.netMac ↔
      ∃ i, (peer.arpCache i).valid = true → (peer.arpCache i).ip = s.netIp := by
  have hrequest : ¬ (bswap16 (p.load16 6) = arpOpRequest ∧ ipAt p 24 = peer.netIp) := by
    rw [hop]
    exact fun h => absurd h.1 (by decide)
  unfold arpHandle
  dsimp only
  rw [if_neg hrequest, if_pos (Or.inr hop), hip, hmac, arpResolve_cacheSender]
  constructor
  · intro h
    by_contra hno
    push Not at hno
    have hnone : peer.slot s.netIp = none := by
      rw [slot, Option.or_eq_none_iff, findEntry_none, findEntry_none]
      refine ⟨fun i => ?_, fun i => ?_⟩
      · rw [(hno i).1, beq_eq_false_iff_ne.mpr (hno i).2]
        rfl
      · rw [(hno i).1]
        rfl
    rw [hnone] at h
    cases h
  · rintro ⟨i, hi⟩
    cases hslot : peer.slot s.netIp with
    | some j => rfl
    | none =>
      exfalso
      rw [slot, Option.or_eq_none_iff, findEntry_none, findEntry_none] at hslot
      have hvalid : (peer.arpCache i).valid = true := by simpa using hslot.2 i
      have hother := hslot.1 i
      rw [hvalid, hi hvalid, beq_self_eq_true] at hother
      cases hother

/-- A request for our address is answered by one frame to the asker, and the peer
then knows our hardware address if its cache has a place for it; the answer names the
asker's address exactly if that reads the same backwards. -/
theorem arp_reply_answers_iff (s peer : Stack) (data : View) (hop : bswap16 (data.load16 6) = arpOpRequest)
    (hours : ipAt data 24 = s.netIp) :
    (∃ frame, (s.arpHandle data).sent = s.sent ++ [frame] ∧ frame.length = 42 ∧
      Framed frame (macAt data 8) s.netMac etherTypeArp ∧ ArpAnswer s data ((View.ofBytes frame).shift 14) ∧
      (peer.arpHandle ((View.ofBytes frame).shift 14)).arpResolve s.netIp = some s.netMac) ↔
    (data 14 = data 17 ∧ data 15 = data 16) ∧ ∃ i, (peer.arpCache i).valid = true →
    (peer.arpCache i).ip = s.netIp := by
  have hsent := arpHandle_sent hop hours
  constructor
  · rintro ⟨frame, hframe, -, -, hanswer, hpeer⟩
    obtain rfl := List.singleton_inj.mp (List.append_cancel_left (hframe.symm.trans hsent))
    rw [shift_frame] at hanswer hpeer
    exact ⟨(arpAnswer_iff s data).mp hanswer,
      (arpHandle_answer peer hanswer.op hanswer.senderIp hanswer.senderMac).mp hpeer⟩
  · rintro ⟨hturned, hroom⟩
    have hanswer := (arpAnswer_iff s data).mpr hturned
    refine ⟨_, hsent, ?_, framed s _ (by decide) _, ?_, ?_⟩
    · rw [List.length_append, ethHead_length]
      rfl
    · rw [shift_frame]
      exact hanswer
    · rw [shift_frame]
      exact (arpHandle_answer peer hanswer.op hanswer.senderIp hanswer.senderMac).mpr hroom

/-- A request for 10.0.2.15 that the station `last` of the same net sends. -/
def askFrom (first last : UInt8) : View := .ofBytes
  [0, 1, 8, 0, 6, 4, 0, 1, 2, 0, 0, 0, 0, 1, first, 0, 0, last, 0, 0, 0, 0, 0, 0, 10, 0, 2, 15]

def emptyStack (ip : UInt32) (mac : Mac) : Stack :=
  ⟨ip, mac, fun _ => ⟨0, fun _ => 0, false⟩, false, [], [], none⟩

private theorem askFrom_ours (first last : UInt8) (mac : Mac) :
    bswap16 ((askFrom first last).load16 6) = arpOpRequest ∧
    ipAt (askFrom first last) 24 = (emptyStack 0x0A00020F mac).netIp := by
  have hip : (emptyStack 0x0A00020F mac).netIp = 0x0A00020F := rfl
  constructor
  · rw [bswap16_load16]
    exact (by decide : (0 : UInt8).toNat * 2^8 + (1 : UInt8).toNat = arpOpRequest)
  · rw [hip, ipAt_eq_iff, forall_lt_four]
    exact ⟨show 10 = _ by decide, show 0 = _ by decide, show 2 = _ by decide, show 15 = _ by decide⟩

/-- An asker with the address 10.0.0.10. -/
theorem arp_reply_answers_iff_turned :
    ∃ frame, ((emptyStack 0x0A00020F fun _ => 0x52).arpHandle (askFrom 10 10)).sent = [frame] ∧
      ArpAnswer (emptyStack 0x0A00020F fun _ => 0x52) (askFrom 10 10) ((View.ofBytes frame).shift 14) := by
  obtain ⟨hop, hours⟩ := askFrom_ours 10 10 fun _ => 0x52
  obtain ⟨frame, hsent, -, -, hanswer, -⟩ := (arp_reply_answers_iff (emptyStack 0x0A00020F fun _ => 0x52)
    (emptyStack 0x0A00000A fun _ => 2) (askFrom 10 10) hop hours).mpr ⟨⟨rfl, rfl⟩, 0, fun h => nomatch h⟩
  exact ⟨frame, hsent, hanswer⟩

/-- An asker with the address 10.0.0.2 gets an answer for 2.0.0.10. -/
theorem arp_reply_turns_address :
    ipAt (askFrom 10 2) 14 = 0x0A000002 ∧
      ((emptyStack 0x0A00020F fun _ => 0x52).arpHandle (askFrom 10 2)).sent =
        [ethHead (emptyStack 0x0A00020F fun _ => 0x52) (macAt (askFrom 10 2) 8) etherTypeArp ++
          arpAnswer (emptyStack 0x0A00020F fun _ => 0x52) (askFrom 10 2)] ∧
      ipAt (.ofBytes (arpAnswer (emptyStack 0x0A00020F fun _ => 0x52) (askFrom 10 2))) 24 = 0x0200000A := by
  obtain ⟨hop, hours⟩ := askFrom_ours 10 2 fun _ => 0x52
  refine ⟨?_, arpHandle_sent hop hours, ?_⟩
  · rw [ipAt_eq_iff, forall_lt_four]
    exact ⟨show 10 = _ by decide, show 0 = _ by decide, show 0 = _ by decide, show 2 = _ by decide⟩
  · have hbytes : (View.ofBytes (arpAnswer (emptyStack 0x0A00020F fun _ => 0x52) (askFrom 10 2))).bytes
      24 4 = [2, 0, 0, 10] :=
      bytes32_turned (askFrom 10 2) 14
    have hip : bytes32 (bswap32 (0x0200000A : UInt32).toNat) = [2, 0, 0, 10] := by decide
    exact ipAt_of_bytes (hbytes.trans hip.symm)

/-! ### Echo requests -/

theorem bytes_eq_iff {d d' : View} {o o' n : Nat} : d.bytes o n = d'.bytes o' n ↔
    ∀ i < n, d (o + i) = d' (o' + i) := by
  constructor
  · intro h i hi
    have hget := congrArg (fun l => l[i]?) h
    simpa [View.bytes, hi] using hget
  · exact View.bytes_congr

/-- The checksum of `ip_send` is in its place. -/
theorem ipHead_checksum (s : Stack) (dst : UInt32) (protocol len : Nat) :
    checksum (ipHead s dst protocol len) = 0 := by
  have hsplit : ∀ check, s.ipHeader dst protocol (add16 20 len) check =
      ([0x45, 0] ++ bytes16 (bswap16 (add16 20 len)) ++ bytes16 (bswap16 0) ++ bytes16 (bswap16 ipDf) ++
        [64, UInt8.ofNat protocol]) ++
        bytes16 check ++ (bytes32 (bswap32 s.netIp.toNat) ++ bytes32 (bswap32 dst.toNat)) := fun check =>
    List.append_assoc _ _ _
  have hzero : bytes16 0 = [0, 0] := rfl
  rw [ipHead, hsplit, hsplit, hzero]
  apply checksum_stored
  · simp
  · simp

/-- The message that answers an echo request of `8 + n` bytes at `m`. -/
theorem echoPacket_eq (m : View) {n : Nat} (hn : 8 + n < 2^16) :
    ∃ check, echoPacket m (8 + n) = [0, 0] ++ bytes16 check ++ m.bytes 4 (4 + n) ∧
    checksum (echoPacket m (8 + n)) = 0 := by
  have htake : ∀ check, ([icmpEchoReply, 0] ++ bytes16 check).take (8 + n) = [0, 0] ++ bytes16 check :=
    fun check =>
    List.take_of_length_le (by simp; omega)
  have hrest : 8 + n - 4 = 4 + n := by omega
  have hpacket : echoPacket m (8 + n) = [0, 0] ++ bytes16
    (checksum ([0, 0] ++ [0, 0] ++ m.bytes 4 (4 + n))) ++ m.bytes 4 (4 + n) := by
    rw [echoPacket, echoReply_take m hn, echoReply_take m hn, htake, htake, hrest]
    rfl
  refine ⟨_, hpacket, ?_⟩
  rw [hpacket]
  apply checksum_stored
  · rfl
  · simp
    omega

/-- An IPv4 packet from us that answers the echo request behind the header of `h`
bytes at `p` with its `n` bytes of data. -/
structure EchoAnswer (s : Stack) (p : View) (h n : Nat) (q : View) : Prop where
  version : ipVersion q = 4
  ihl : ipIhl q = 5
  totalLength : ipTotalLength q = 28 + n
  protocol : (q 9).toNat = ipProtoIcmp
  src : ipAt q 12 = s.netIp
  dst : ipAt q 16 = ipAt p 12
  headerSum : checksum (q.bytes 0 20) = 0
  type : q 20 = icmpEchoReply
  code : q 21 = 0
  identifier : q.bytes 24 2 = p.bytes (h + 4) 2
  sequence : q.bytes 26 2 = p.bytes (h + 6) 2
  payload : q.bytes 28 n = p.bytes (h + 8) n
  messageSum : checksum (q.bytes 20 (8 + n)) = 0

/-- The packet that is sent for a message at `p + 20`. -/
def echoAnswer (s : Stack) (p : View) (n : Nat) : List UInt8 :=
  ipHead s (ipAt p 12) ipProtoIcmp (8 + n) ++ echoPacket (p.shift 20) (8 + n)

theorem echoAnswer_iff (s : Stack) (p : View) {h n : Nat} (hn : n ≤ 1016) :
    EchoAnswer s p h n (.ofBytes (echoAnswer s p n)) ↔ ∀ i < 4 + n, p (24 + i) = p (h + 4 + i) := by
  obtain ⟨check, hpacket, hsum⟩ := echoPacket_eq (p.shift 20) (n := n) (by omega)
  have hlength : (echoPacket (p.shift 20) (8 + n)).length = 8 + n := echoPacket_length _ (by omega)
  have hmessage : (View.ofBytes (echoAnswer s p n)).shift 20 = .ofBytes (echoPacket (p.shift 20) (8 + n)) := by
    rw [View.shift_ofBytes, echoAnswer, ← ipHead_length (s := s) (ipAt p 12) ipProtoIcmp (8 + n),
      List.drop_left]
  have hdata : (View.ofBytes (echoAnswer s p n)).bytes 24 (4 + n) = p.bytes 24 (4 + n) := by
    have hread := View.bytes_shift (View.ofBytes (echoAnswer s p n)) 20 4 (4 + n)
    rw [← hread, hmessage, ← View.bytes_shift p 20 4 (4 + n)]
    have hdrop : (View.ofBytes (echoPacket (p.shift 20) (8 + n))).shift 4 =
      .ofBytes ((p.shift 20).bytes 4 (4 + n)) := by
      rw [View.shift_ofBytes, hpacket]
      rfl
    have hwhole := View.bytes_ofBytes ((p.shift 20).bytes 4 (4 + n)) (n := 4 + n) (by rw [View.bytes_length])
    rw [← hdrop, View.bytes_shift, List.take_of_length_le (by rw [View.bytes_length])] at hwhole
    exact hwhole
  have hfields : p.bytes 24 (4 + n) = p.bytes (h + 4) (4 + n) ↔
    ∀ i < 4 + n, p (24 + i) = p (h + 4 + i) := bytes_eq_iff
  rw [← hfields, ← hdata]
  constructor
  · intro ha
    have hsplit : 4 + n = 2 + (2 + n) := by omega
    rw [hsplit, View.bytes_add, View.bytes_add, View.bytes_add, View.bytes_add]
    exact congrArg₂ (· ++ ·) ha.identifier (congrArg₂ (· ++ ·) ha.sequence ha.payload)
  · intro heq
    have hsplit : 4 + n = 2 + (2 + n) := by omega
    rw [hsplit, View.bytes_add, View.bytes_add, View.bytes_add, View.bytes_add] at heq
    obtain ⟨hidentifier, heq⟩ := List.append_inj heq (by simp)
    obtain ⟨hsequence, hpayload⟩ := List.append_inj heq (by simp)
    have htotal : (View.ofBytes (echoAnswer s p n)).load16 2 = bswap16 (add16 20 (8 + n)) :=
      load16_of_bytes rfl rfl (bswap16_lt _)
    have hadd : add16 20 (8 + n) = 28 + n := by
      unfold add16
      omega
    constructor
    · exact (by decide : (0x45 : UInt8).toNat / 16 = 4)
    · exact (by decide : (0x45 : UInt8).toNat % 16 = 5)
    · rw [ipTotalLength, htotal, hadd, bswap16_bswap16 (by omega)]
    · rfl
    · exact ipAt_of_bytes rfl
    · exact ipAt_of_bytes rfl
    · rw [View.bytes_ofBytes _ (by simp [echoAnswer, ipHead_length]), echoAnswer]
      exact ipHead_checksum s (ipAt p 12) ipProtoIcmp (8 + n)
    · have htype : (View.ofBytes (echoAnswer s p n)) 20 = (View.ofBytes (echoPacket (p.shift 20) (8 + n))) 0 :=
        congrFun hmessage 0
      rw [htype, hpacket]
      rfl
    · have hcode : (View.ofBytes (echoAnswer s p n)) 21 = (View.ofBytes (echoPacket (p.shift 20) (8 + n))) 1 :=
        congrFun hmessage 1
      rw [hcode, hpacket]
      rfl
    · exact hidentifier
    · exact hsequence
    · exact hpayload
    · have hread := View.bytes_shift (View.ofBytes (echoAnswer s p n)) 20 0 (8 + n)
      rw [hmessage, View.bytes_ofBytes _ (by omega), List.take_of_length_le (by omega)] at hread
      rw [← hread]
      exact hsum

/-- A frame with an ICMP echo request for us with `n` bytes of data, all of them received. -/
structure EchoRequest (s : Stack) (data : View) (len : UInt16) (n : Nat) : Prop where
  received : 14 + (4 * ipIhl (data.shift 14) + (8 + n)) ≤ len.toNat
  forUs : s.forUs data = true
  etherType : bswap16 (data.load16 12) = etherTypeIpv4
  version : ipVersion (data.shift 14) = 4
  ihl : 5 ≤ ipIhl (data.shift 14)
  totalLength : ipTotalLength (data.shift 14) = 4 * ipIhl (data.shift 14) + (8 + n)
  protocol : (data.shift 14 9).toNat = ipProtoIcmp
  dst : ipAt (data.shift 14) 16 = s.netIp
  type : data.shift 14 (4 * ipIhl (data.shift 14)) = icmpEchoRequest

theorem EchoRequest.sent {len : UInt16} {n : Nat} (h : EchoRequest s data len n) (hn : n ≤ 1016)
    (hknown : s.arpResolve (ipAt (data.shift 14) 12) = some mac) :
    (s.netHandlePacket data len).sent = if data.shift 14 20 = icmpEchoRequest then
      s.sent ++ [ethHead s mac etherTypeIpv4 ++ echoAnswer s (data.shift 14) n] else s.sent := by
  have hlength : icmpLength (data.shift 14) = 8 + n := by
    have hihl : ipIhl (data.shift 14) < 16 := Nat.mod_lt _ (by decide)
    rw [icmpLength, h.totalLength, sub16_eq (by omega) (by omega)]
    omega
  have hframe : ipFrame s (ipAt (data.shift 14) 12) ipProtoIcmp
    (echoPacket ((data.shift 14).shift 20) (8 + n)) =
      ethHead s mac etherTypeIpv4 ++ echoAnswer s (data.shift 14) n := by
    have hpacket : (echoPacket ((data.shift 14).shift 20) (8 + n)).length = 8 + n :=
      echoPacket_length _ (by omega)
    rw [ipFrame_whole hknown _ (by omega), hpacket, echoAnswer]
  have heffect : (s.netHandlePacket data len).effect = (s.ipHandle (data.shift 14)).effect := by
    have hlong : ¬ len.toNat < 14 := by
      have := h.received
      omega
    have harp : etherTypeIpv4 ≠ etherTypeArp := by decide
    unfold netHandlePacket
    rw [if_neg hlong, h.forUs, if_neg (by decide)]
    dsimp only
    rw [h.etherType, if_neg harp, if_pos rfl]
    exact ipHandle_record _ _
  have hfit : 8 + sub16 (8 + n) 8 ≤ Buf.reply.size := by
    rw [sub16_eq (by omega) (by omega)]
    simp only [Buf.size]
    omega
  rw [ipHandle_icmp ⟨h.version, h.dst, h.protocol⟩, hlength, hframe, if_pos hfit] at heffect
  have hsent := congrArg Prod.fst heffect
  rw [apply_ite Prod.fst] at hsent
  exact hsent

/-- A ping from a station in the ARP cache is answered by one frame that mirrors it
exactly if its header has no options, or these happen to look like the message. -/
theorem echo_reply_mirrors_iff {len : UInt16} {n : Nat} (h : EchoRequest s data len n) (hn : n ≤ 1016)
    (hknown : s.arpResolve (ipAt (data.shift 14) 12) = some mac) :
    (∃ frame, (s.netHandlePacket data len).sent = s.sent ++ [frame] ∧ frame.length = 42 + n ∧
      Framed frame mac s.netMac etherTypeIpv4 ∧
      EchoAnswer s (data.shift 14) (4 * ipIhl (data.shift 14)) n ((View.ofBytes frame).shift 14)) ↔
    ipIhl (data.shift 14) = 5 ∨ data.shift 14 20 = icmpEchoRequest ∧
      ∀ i < 4 + n, data.shift 14 (24 + i) = data.shift 14 (4 * ipIhl (data.shift 14) + 4 + i) := by
  have hsent := h.sent hn hknown
  have hlength : (ethHead s mac etherTypeIpv4 ++ echoAnswer s (data.shift 14) n).length = 42 + n := by
    rw [List.length_append, ethHead_length, echoAnswer, List.length_append, ipHead_length,
      echoPacket_length _ (by omega)]
    omega
  constructor
  · rintro ⟨frame, hframe, -, -, hanswer⟩
    rw [hsent] at hframe
    split at hframe
    · next htype =>
      obtain rfl := List.singleton_inj.mp (List.append_cancel_left hframe)
      rw [shift_frame] at hanswer
      exact .inr ⟨htype, (echoAnswer_iff s _ hn).mp hanswer⟩
    · simp at hframe
  · intro hcond
    have hread : data.shift 14 20 = icmpEchoRequest ∧
        ∀ i < 4 + n, data.shift 14 (24 + i) = data.shift 14 (4 * ipIhl (data.shift 14) + 4 + i) := by
      rcases hcond with hihl | hcond
      · -- without options the message is where it is looked for
        have htype := h.type
        rw [hihl] at htype ⊢
        exact ⟨htype, fun _ _ => rfl⟩
      · exact hcond
    rw [if_pos hread.1] at hsent
    refine ⟨_, hsent, hlength, framed s _ (by decide) _, ?_⟩
    rw [shift_frame]
    exact (echoAnswer_iff s _ hn).mpr hread.2

/-- A ping with one byte of data from 10.0.2.2; `head` is version and header length. -/
def ping (head total : UInt8) (options : List UInt8) : View := .ofBytes <|
  [0xFF, 0xFF, 0xFF, 0xFF, 0xFF, 0xFF, 2, 0, 0, 0, 0, 1, 0x08, 0x00,
    head, 0, 0, total, 0, 0, 0x40, 0, 64, 1, 0, 0, 10, 0, 2, 2, 10, 0, 2, 15] ++ options ++
      [8, 0, 0, 0, 0, 1, 0, 1, 0x61]

theorem echo_reply_mirrors_iff_plain :
    ∃ frame, (resolvedStack.netHandlePacket (ping 0x45 29 []) 43).sent = [frame] ∧ frame.length = 43 ∧
      EchoAnswer resolvedStack ((ping 0x45 29 []).shift 14) 20 1 ((View.ofBytes frame).shift 14) := by
  have h : EchoRequest resolvedStack (ping 0x45 29 []) 43 1 := by
    constructor
    all_goals decide +kernel
  have hknown : resolvedStack.arpResolve (ipAt ((ping 0x45 29 []).shift 14) 12) = some fun _ => 2 := by
    decide +kernel
  obtain ⟨frame, hsent, hlength, -, hanswer⟩ :=
    (echo_reply_mirrors_iff h (by decide) hknown).mpr (.inl (by decide +kernel))
  exact ⟨frame, hsent, hlength, hanswer⟩

/-- With four no-operation options no reply is sent at all. -/
theorem options_not_answered :
    EchoRequest resolvedStack (ping 0x46 33 [1, 1, 1, 1]) 47 1 ∧
      (resolvedStack.arpResolve (ipAt ((ping 0x46 33 [1, 1, 1, 1]).shift 14) 12) = some fun _ => 2) ∧
      (resolvedStack.netHandlePacket (ping 0x46 33 [1, 1, 1, 1]) 47).sent = [] := by
  have h : EchoRequest resolvedStack (ping 0x46 33 [1, 1, 1, 1]) 47 1 := by
    constructor
    all_goals decide +kernel
  have hknown : resolvedStack.arpResolve (ipAt ((ping 0x46 33 [1, 1, 1, 1]).shift 14) 12) =
    some fun _ => 2 := by decide +kernel
  exact ⟨h, hknown, (h.sent (by decide) hknown).trans (if_neg (by decide +kernel))⟩

end GeckoOS.Net
