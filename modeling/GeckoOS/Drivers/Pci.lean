/-! The enumeration of pci.c: the functions of every bus are scanned, and each bridge
brings a bus of its own, which is enumerated before the scan goes on. `kmalloc` has
memory for each of the records. -/
namespace GeckoOS.Drivers.Pci

/-- The doubleword that port 0xCFC gives for each address written to port 0xCF8. -/
abbrev Config := Nat → UInt32

def pciReadl (cfg : Config) (bus slot func off : Nat) : UInt32 :=
  cfg (bus <<< 16 ||| slot <<< 11 ||| func <<< 8 ||| off &&& 0xFC ||| 0x80000000)

def pciReadb (cfg : Config) (bus slot func off : Nat) : UInt8 :=
  (pciReadl cfg bus slot func (off &&& 0xFC) >>> .ofNat ((off &&& 3) * 8)).toUInt8

/-! Offsets in `struct pci_hdr`; the two last ones are of a bridge. -/

def vendid : Nat := 0
def clas : Nat := 11
def htype : Nat := 14
def sBusnum : Nat := 25
def ssBusnum : Nat := 26

/-- The list through `sibling` is that of the bus, so it and the way back are left out. -/
structure PciDev where
  devfn : Nat
  clas : UInt8
  device : UInt32
  vendor : UInt32

/-- The lists through `devices` and `children`, without the pointers back. -/
structure PciBus where
  bus : UInt8
  primary : UInt8
  secondary : UInt8
  devices : List PciDev
  children : List PciBus

section Enumerate
-- `enumBus` enumerates a bus; the result is none if it does not return
variable (cfg : Config) (enumBus : PciBus → Option PciBus)

def allocNewBus (parent : PciBus) (self : PciDev) : Option PciBus := do
  let secondary := pciReadb cfg parent.bus.toNat (self.devfn >>> 3) (self.devfn &&& 7) ssBusnum
  let child ← enumBus ⟨secondary, secondary, secondary, [], []⟩
  return { parent with children := parent.children ++ [child] }

def enumeratePcidev (parent : PciBus) (dev func : Nat) : Option PciBus :=
  let tmp := pciReadl cfg parent.primary.toNat dev func vendid
  if tmp = 0xffffffff then some parent
  else do
    let type := pciReadb cfg parent.primary.toNat dev func htype
    let pciDev : PciDev :=
      ⟨dev <<< 3 ||| func &&& 7, pciReadb cfg parent.primary.toNat dev func clas, tmp >>> 16, tmp &&& 0xffff⟩
    let parent ← if type &&& 0x7f = 1 then allocNewBus cfg enumBus parent pciDev else some parent
    return { parent with devices := parent.devices ++ [pciDev] }

/-- The inner loop of `enumerate_pcibus`. -/
def enumerateFns (device : Nat) : List Nat → PciBus → Option PciBus
  | [], bus => some bus
  | fn :: fns, bus =>
    let type := pciReadb cfg bus.primary.toNat device fn htype
    if type = 0xff then some bus
    else do
      let bus ← enumeratePcidev cfg enumBus bus device fn
      if type &&& 0x80 = 0 then return bus else enumerateFns device fns bus

end Enumerate

/-- `enumerate_pcibus`, nested at most `depth` times. -/
def enumeratePcibus (cfg : Config) : Nat → PciBus → Option PciBus
  | 0, _ => none
  | depth + 1, bus =>
    (List.range 32).foldlM (fun bus device =>
      enumerateFns cfg (enumeratePcibus cfg depth) device (List.range 8) bus) bus

/-- `pci_enumarate`: the root bus that it leaves behind. -/
def pciEnumarate (cfg : Config) (depth : Nat) : Option PciBus := enumeratePcibus cfg depth ⟨0, 0, 0, [], []⟩

end GeckoOS.Drivers.Pci
