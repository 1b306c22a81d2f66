import GeckoOS.Lib.Bytes
import GeckoOS.Lib.Runs
import GeckoOS.Lib.Ring
import Mathlib.Logic.Function.Basic

/-! The descriptor rings of e1000.c, and the network card as a second party that
works on them. Physical memory is one view; the descriptors have pages of their own. -/
namespace GeckoOS.Drivers.E1000
open Lib

def numRxDesc : Nat := 32
def numTxDesc : Nat := 8
def rxBufSize : Nat := 2048
def txBufSize : Nat := 2048

/-- The status bit that the card sets when it is done with a descriptor. -/
def statDD : UInt8 := 1

/-- EOP, IFCS and RS. -/
def txdCmd : UInt8 := 1 ||| 2 ||| 8

/-- The bytes of `data` at address `a`. -/
def copyTo (m : View) (a : Nat) (data : List UInt8) : View := fun i =>
  if a ≤ i ∧ i < a + data.length then data.getD (i - a) 0 else m i

structure RxDesc where
  addr : Nat
  length : Nat
  status : UInt8

def RxDesc.done (d : RxDesc) : Bool := d.status &&& statDD != 0

/-- The receive ring with the registers RDH and RDT of the card. -/
structure Rx where
  descs : Nat → RxDesc
  mem : View
  bufs : Nat
  tail : Nat
  head : Nat
  rdt : Nat

namespace Rx

/-- `rx_init` on whatever the descriptors hold. -/
def init (descs : Nat → RxDesc) (mem : View) (bufs : Nat) : Rx :=
  ⟨fun i => { descs i with addr := bufs + i * rxBufSize, status := 0 }, mem, bufs, 0, 0, numRxDesc - 1⟩

/-- The descriptor at the tail goes back to the card. -/
def release (s : Rx) : Rx :=
  { s with
    descs := Function.update s.descs s.tail { s.descs s.tail with status := 0 }
    rdt := s.tail
    tail := (s.tail + 1) % numRxDesc }

/-- `e1000_receive` after the initialisation; nothing is the result -1. -/
def receive (s : Rx) : Option (List UInt8) × Rx :=
  if (s.descs s.tail).done then
    (some (s.mem.bytes (s.bufs + s.tail * rxBufSize) (s.descs s.tail).length), s.release)
  else (none, s)

/-- The card puts a packet into the buffer of its head. -/
def store (s : Rx) (packet : List UInt8) (status : UInt8) : Rx :=
  { s with
    mem := copyTo s.mem (s.descs s.head).addr packet
    descs := Function.update s.descs s.head ⟨(s.descs s.head).addr, packet.length, status⟩
    head := (s.head + 1) % numRxDesc }

/-- What happens: the card stores a packet or drops it, or the driver is asked for one. -/
inductive Event where
  | stored (packet : List UInt8) (status : UInt8)
  | dropped (packet : List UInt8)
  | received (result : Option (List UInt8))

inductive Step : Rx → Event → Rx → Prop
  | stored {s : Rx} {packet : List UInt8} {status : UInt8} (hroom : s.head ≠ s.rdt)
      (hlen : packet.length ≤ 2048)
      (hdone : status &&& statDD ≠ 0) : Step s (.stored packet status) (s.store packet status)
  | dropped {s : Rx} {packet : List UInt8} (hfull : s.head = s.rdt) : Step s (.dropped packet) s
  | received {s : Rx} : Step s (.received s.receive.1) s.receive.2

/-- The packets that the card has stored, and those that the driver has returned. -/
def storedIn : List Event → List (List UInt8) := List.filterMap fun
  | .stored packet _ => some packet
  | _ => none

def returnedIn : List Event → List (List UInt8) := List.filterMap fun
  | .received result => result
  | _ => none

end Rx

structure TxDesc where
  addr : Nat
  length : Nat
  cmd : UInt8
  status : UInt8

def TxDesc.done (d : TxDesc) : Bool := d.status &&& statDD != 0

/-- The transmit ring with the registers TDH and TDT of the card. -/
structure Tx where
  descs : Nat → TxDesc
  mem : View
  buf : Nat
  tail : Nat
  head : Nat
  tdt : Nat

namespace Tx

/-- `tx_init` on whatever the descriptors hold. -/
def init (descs : Nat → TxDesc) (mem : View) (buf : Nat) : Tx :=
  ⟨fun i => { descs i with addr := 0, status := statDD }, mem, buf, 0, 0, 0⟩

/-- The ring after a call that got a descriptor. -/
def filled (s : Tx) (data : List UInt8) : Tx :=
  { s with
    mem := copyTo s.mem s.buf data
    descs := Function.update s.descs s.tail ⟨s.buf, data.length, txdCmd, 0⟩
    tail := (s.tail + 1) % numTxDesc
    tdt := (s.tail + 1) % numTxDesc }

/-- `e1000_send` after the initialisation, with 0 or -1. The loop that waits for
a free descriptor may also give up; the steps of the card in it come before the call. -/
def send (s : Tx) (data : List UInt8) : Int × Tx :=
  if txBufSize < data.length then (-1, s)
  else if !(s.descs s.tail).done then (-1, s)
  else (0, s.filled data)

/-- The frame that the card sends next, and the ring after it. -/
def frame (s : Tx) : List UInt8 := s.mem.bytes (s.descs s.head).addr (s.descs s.head).length

def transmit (s : Tx) : Tx :=
  { s with
    descs := Function.update s.descs s.head { s.descs s.head with status := (s.descs s.head).status ||| statDD }
    head := (s.head + 1) % numTxDesc }

/-- A call with its result, and a frame on the wire. -/
inductive Event where
  | called (data : List UInt8) (result : Int)
  | sent (frame : List UInt8)

inductive Step : Tx → Event → Tx → Prop
  | called {s : Tx} (data : List UInt8) : Step s (.called data (s.send data).1) (s.send data).2
  | sent {s : Tx} (hwork : s.head ≠ s.tdt) : Step s (.sent s.frame) s.transmit

/-- The data of the successful calls, and the frames that were sent. -/
def acceptedIn : List Event → List (List UInt8) := List.filterMap fun
  | .called data result => if result = 0 then some data else none
  | _ => none

def sentIn : List Event → List (List UInt8) := List.filterMap fun
  | .sent frame => some frame
  | _ => none

end Tx
end GeckoOS.Drivers.E1000
