import GeckoOS.Lib.Bytes
import GeckoOS.Lib.CInt
import Mathlib.Data.List.OfFn
import Mathlib.Logic.Function.Basic

/-! The network stack of net.c, arp.c, ip.c and icmp.c. Packets are read through
a view of memory, since no handler stops at the end of the frame; every store
to a buffer and every 16-bit length is recorded as it happens. A copy that runs on
behind its buffer ends the handling of the packet: what it overwrites there
decides how the code goes on. -/
namespace GeckoOS.Net
open Lib

abbrev Mac := Fin 6 → UInt8

/-- The buffers that handling a packet stores to. -/
inductive Buf where
  | reply | ipTx | ethTx | dma | arpPacket | dstMac | cacheMac
  deriving DecidableEq

/-- Their sizes in bytes, as declared. -/
def Buf.size : Buf → Nat
  | .reply => 1024
  | .ipTx => 1514
  | .ethTx => 2048
  | .dma => 2048
  | .arpPacket => 28
  | .dstMac => 6
  | .cacheMac => 6

/-- A store of `len` bytes at `off`, or a 16-bit sum or difference of lengths. -/
inductive Event where
  | store (buf : Buf) (off len : Nat)
  | sum (a b : Nat)
  | difference (a b : Nat)

structure ArpEntry where
  ip : UInt32
  mac : Mac
  valid : Bool

/-- The stack's variables, the frames handed to the card, the events, oldest first, and
the last copy that did not fit its buffer. -/
structure Stack where
  netIp : UInt32
  netMac : Mac
  arpCache : Fin 16 → ArpEntry
  replyReceived : Bool
  sent : List (List UInt8)
  events : List Event
  overrun : Option (Buf × List UInt8)

def etherTypeArp : Nat := 0x0806
def etherTypeIpv4 : Nat := 0x0800
def arpOpRequest : Nat := 1
def arpOpReply : Nat := 2
def ipProtoIcmp : Nat := 1
def ipDf : Nat := 0x4000
def icmpEchoRequest : UInt8 := 8
def icmpEchoReply : UInt8 := 0
def macBroadcast : Mac := fun _ => 0xFF

/-- The six bytes from offset `o` on. -/
def macAt (data : View) (o : Nat) : Mac := fun i => data (o + i)

/-- A 32-bit address in network order. -/
def ipAt (data : View) (o : Nat) : UInt32 := .ofNat (bswap32 (data.load32 o))

/-- The sum of the 16-bit words in a 32-bit accumulator, a last odd byte on its own. -/
def wordSum (sum : Nat) : List UInt8 → Nat
  | a :: b :: rest => wordSum (add32 sum (a.toNat + 2^8 * b.toNat)) rest
  | [a] => add32 sum a.toNat
  | [] => sum

/-- `while (sum >> 16)`. -/
def foldCarry (sum : Nat) : Nat :=
  if sum / 2^16 = 0 then sum else foldCarry (sum % 2^16 + sum / 2^16)
termination_by sum
decreasing_by omega

/-- `ip_checksum` and its copy `icmp_checksum`, over the `len` bytes given. -/
def checksum (data : List UInt8) : Nat := 2^16 - 1 - foldCarry (wordSum 0 data) % 2^16

namespace Stack

def record (s : Stack) (es : List Event) : Stack := { s with events := s.events ++ es }

/-- `memcpy` of the bytes to `off` in a buffer, and what comes after it if they fit. -/
def copyThen (s : Stack) (buf : Buf) (off : Nat) (bytes : List UInt8) (rest : Stack → Stack) : Stack :=
  let s := s.record [.store buf off bytes.length]
  if off + bytes.length ≤ buf.size then rest s else { s with overrun := some (buf, bytes) }

/-- The driver refuses a frame that its DMA buffer cannot hold. -/
def e1000Send (s : Stack) (frame : List UInt8) : Stack :=
  { s with
    sent := s.sent ++ [frame]
    events := s.events ++ if Buf.dma.size < frame.length then [] else [.store .dma 0 frame.length] }

/-- `payload` is the `len` bytes at the pointer. -/
def netSendFrame (s : Stack) (dstMac : Mac) (etherType : Nat) (payload : List UInt8) : Stack :=
  let frame := List.ofFn dstMac ++ List.ofFn s.netMac ++ bytes16 (bswap16 etherType) ++ payload
  (s.record [.store .ethTx 0 14]).copyThen .ethTx 14 payload fun s =>
    (s.record [.sum 14 payload.length]).e1000Send (frame.take (add16 14 payload.length))

/-- An ARP packet over Ethernet and IPv4; `senderIp` and `targetIp` are the words stored. -/
def arpPacket (op : Nat) (senderMac : Mac) (senderIp : Nat) (targetMac : Mac) (targetIp : Nat) : List UInt8 :=
  bytes16 (bswap16 1) ++ bytes16 (bswap16 0x0800) ++ [6, 4] ++ bytes16 (bswap16 op) ++
    List.ofFn senderMac ++ bytes32 senderIp ++ List.ofFn targetMac ++ bytes32 targetIp

def arpRequest (s : Stack) (targetIp : UInt32) : Stack :=
  (s.record [.store .arpPacket 0 28]).netSendFrame macBroadcast etherTypeArp
    (arpPacket arpOpRequest s.netMac (bswap32 s.netIp.toNat) (fun _ => 0) (bswap32 targetIp.toNat))

/-- The answer to a request for our address. The sender's address is swapped
although it is stored as it was read. -/
def arpReply (s : Stack) (data : View) : Stack :=
  (s.record [.store .arpPacket 0 28]).netSendFrame (macAt data 8) etherTypeArp
    (arpPacket arpOpReply s.netMac (bswap32 s.netIp.toNat) (macAt data 8) (bswap32 (data.load32 14)))

def setEntry (s : Stack) (i : Fin 16) (e : ArpEntry) : Stack :=
  { s with arpCache := Function.update s.arpCache i e }

def findEntry (s : Stack) (p : ArpEntry → Bool) : Option (Fin 16) :=
  (List.finRange 16).find? fun i => p (s.arpCache i)

/-- The two loops of `arp_handle`: the entry of that address, else the first
invalid one; a full cache stays as it is. -/
def cacheSender (s : Stack) (senderIp : UInt32) (senderMac : Mac) : Stack :=
  match s.findEntry fun e => e.valid && e.ip == senderIp with
  | some i => (s.record [.store .cacheMac 0 6]).setEntry i { s.arpCache i with mac := senderMac }
  | none =>
    match s.findEntry fun e => !e.valid with
    | some i => (s.record [.store .cacheMac 0 6]).setEntry i ⟨senderIp, senderMac, true⟩
    | none => s

def arpHandle (s : Stack) (data : View) : Stack :=
  let op := bswap16 (data.load16 6)
  let s := if op = arpOpRequest ∧ ipAt data 24 = s.netIp then s.arpReply data else s
  if op = arpOpRequest ∨ op = arpOpReply then s.cacheSender (ipAt data 14) (macAt data 8) else s

def arpResolve (s : Stack) (ip : UInt32) : Option Mac :=
  (s.findEntry fun e => e.valid && e.ip == ip).map fun i => (s.arpCache i).mac

/-- The IPv4 header of `ip_send`, with the given checksum word. -/
def ipHeader (s : Stack) (dstIp : UInt32) (protocol totalLength check : Nat) : List UInt8 :=
  [0x45, 0] ++ bytes16 (bswap16 totalLength) ++ bytes16 (bswap16 0) ++ bytes16 (bswap16 ipDf) ++
    [64, .ofNat protocol] ++ bytes16 check ++ bytes32 (bswap32 s.netIp.toNat) ++ bytes32 (bswap32 dstIp.toNat)

/-- `payload` is the `payload_len` bytes at the pointer. -/
def ipSend (s : Stack) (dstIp : UInt32) (protocol : Nat) (payload : List UInt8) : Stack :=
  let total := add16 20 payload.length
  let header := s.ipHeader dstIp protocol total (checksum (s.ipHeader dstIp protocol total 0))
  (s.record [.sum 20 payload.length, .store .ipTx 0 20]).copyThen .ipTx 20 payload fun s =>
    let s := s.record [.store .ipTx 10 2]
    match s.arpResolve dstIp with
    | some mac =>
      (s.record [.store .dstMac 0 6]).netSendFrame mac etherTypeIpv4 ((header ++ payload).take total)
    | none => s.arpRequest dstIp

/-- The echo reply to a request at `data`, with the given checksum word. -/
def echoReply (data : View) (payloadLen check : Nat) : List UInt8 :=
  [icmpEchoReply, 0] ++ bytes16 check ++ bytes16 (data.load16 4) ++ bytes16
    (data.load16 6) ++ data.bytes 8 payloadLen

/-- The echo request that we send, with the given checksum word. -/
def echoMessage (id seq : UInt16) (check : Nat) : List UInt8 :=
  [icmpEchoRequest, 0] ++ bytes16 check ++ bytes16 (bswap16 id.toNat) ++ bytes16 (bswap16 seq.toNat) ++
    "GeckoOS ping".toList.map fun c => .ofNat c.toNat

/-- The message fits the buffer of 128 bytes that it is built in. -/
def icmpSendEchoRequest (s : Stack) (dstIp : UInt32) (id seq : UInt16) : Stack :=
  s.ipSend dstIp ipProtoIcmp (echoMessage id seq (checksum (echoMessage id seq 0)))

def icmpClearReply (s : Stack) : Stack := { s with replyReceived := false }

def icmpHandle (s : Stack) (srcIp : UInt32) (data : View) (len : Nat) : Stack :=
  if data 0 = icmpEchoRequest then
    let payloadLen := sub16 len 8
    let total := add16 8 payloadLen
    let check := checksum ((echoReply data payloadLen 0).take total)
    (s.record [.difference len 8, .store .reply 0 8]).copyThen .reply 8 (data.bytes 8 payloadLen) fun s =>
      (s.record [.sum 8 payloadLen, .store .reply 2 2]).ipSend srcIp ipProtoIcmp
        ((echoReply data payloadLen check).take total)
  else if data 0 = icmpEchoReply then { s with replyReceived := true }
  else s

/-- Version and header length of an IPv4 header, and its total length. -/
def ipVersion (data : View) : Nat := (data 0).toNat / 16
def ipIhl (data : View) : Nat := (data 0).toNat % 16
def ipTotalLength (data : View) : Nat := bswap16 (data.load16 2)

/-- The payload is taken to start right after a header without options. -/
def ipHandle (s : Stack) (data : View) : Stack :=
  if ipVersion data ≠ 4 then s
  else if ipAt data 16 ≠ s.netIp then s
  else
    let hdrLen := ipIhl data * 4
    let payloadLen := sub16 (ipTotalLength data) hdrLen
    let s := s.record [.difference (ipTotalLength data) hdrLen]
    if (data 9).toNat = ipProtoIcmp then s.icmpHandle (ipAt data 12) (data.shift 20) payloadLen else s

/-- Each byte of the destination is ours or 0xFF. -/
def forUs (s : Stack) (data : View) : Bool :=
  (List.finRange 6).all fun i => data i == s.netMac i || data i == 0xFF

def netHandlePacket (s : Stack) (data : View) (len : UInt16) : Stack :=
  if len.toNat < 14 then s
  else if !s.forUs data then s
  else
    let type := bswap16 (data.load16 12)
    if type = etherTypeArp then (s.record [.difference len.toNat 14]).arpHandle (data.shift 14)
    else if type = etherTypeIpv4 then (s.record [.difference len.toNat 14]).ipHandle (data.shift 14)
    else s

end Stack
end GeckoOS.Net
