import GeckoOS.Drivers.PciBuses
import GeckoOS.Lib.Chain
import GeckoOS.Lib.Forest

/-! `walk_buses` of pci.c on the tree of buses in memory. Every bus has a pointer to the
first of its children, to the next child of its parent and to the first of its devices. -/
namespace GeckoOS.Drivers.Pci
open Lib

/-- A pointer; `NULL` is 0. -/
abbrev Ptr := Nat

/-- A `struct pci_bus` in memory. -/
structure BusNode where
  bus : UInt8
  primary : UInt8
  secondary : UInt8
  children : Ptr
  next : Ptr
  devices : Ptr

/-- A `struct pci_dev` in memory. -/
structure DevNode where
  dev : PciDev
  sibling : Ptr

structure Heap where
  bus : Ptr → BusNode
  dev : Ptr → DevNode

namespace Heap
variable (h : Heap)

/-- The devices of a list to which the callback is applied, if the loop ends. -/
def walkDevices : Nat → Ptr → Option (List Ptr)
  | 0, _ => none
  | fuel + 1, dev => if dev = 0 then some [] else (walkDevices fuel (h.dev dev).sibling).map (dev :: ·)

/-- The passes of the outer loop from `cur` on. -/
def walkFrom : Nat → Ptr → List Ptr → Option (List Ptr)
  | 0, _, _ => none
  | fuel + 1, cur, visited =>
    if cur = 0 then some []
    else if cur ∈ visited then some []
    else do
      let visited := if visited.length < 64 then visited ++ [cur] else visited
      let devs ← h.walkDevices fuel (h.bus cur).devices
      let rest ← walkFrom fuel
        (if (h.bus cur).children ≠ 0 then (h.bus cur).children else (h.bus cur).next) visited
      return devs ++ rest

/-- `walk_buses`: the devices in the order in which the callback gets them. -/
def walkBuses (fuel : Nat) (start : Ptr) : Option (List Ptr) := h.walkFrom fuel start []

/-- The walk ends, and the callback gets these devices. -/
def Calls (start : Ptr) (calls : List Ptr) : Prop := ∃ n, ∀ fuel, n ≤ fuel → h.walkBuses fuel start = some calls

end Heap

/-- The buses in memory: each with its pointer and the ones to its devices. -/
abbrev BusForest := Forest (Ptr × List Ptr)

namespace BusForest

/-- The buses lie in memory from a pointer on. -/
def Held (h : Heap) : BusForest → Ptr → Prop
  | .nil, p => p = 0
  | .node a children next, p =>
    p = a.1 ∧ a.1 ≠ 0 ∧ Linked (fun d => (h.dev d).sibling) (· = 0) (h.bus a.1).devices a.2 ∧
      Held h children (h.bus a.1).children ∧ Held h next (h.bus a.1).next

/-- The buses as the enumeration describes them. -/
def buses (h : Heap) : BusForest → List PciBus
  | .nil => []
  | .node a children next =>
    ⟨(h.bus a.1).bus, (h.bus a.1).primary, (h.bus a.1).secondary, a.2.map fun d =>
      (h.dev d).dev, buses h children⟩ ::
      buses h next

/-- The devices on all buses. -/
def devices (f : BusForest) : List Ptr := f.items.flatMap Prod.snd

/-- The passes that both loops make at most. -/
def size : BusForest → Nat
  | .nil => 1
  | .node a children next => a.2.length + size children + size next + 1

end BusForest

/-- Each bus and each device has a block of memory of its own. -/
structure Layout (h : Heap) (f : BusForest) (start : Ptr) : Prop where
  held : f.Held h start
  nodup_buses : (f.items.map Prod.fst).Nodup
  nodup_devices : f.devices.Nodup

variable {h : Heap} {f : BusForest} {p : Ptr}

theorem walkDevices_linked {ds : List Ptr} {fuel : Nat} (hl : Linked (fun d => (h.dev d).sibling) (· = 0) p ds)
    (hfuel : ds.length < fuel) :
    h.walkDevices fuel p = some ds := by
  induction ds generalizing p fuel with
  | nil =>
    obtain ⟨fuel, rfl⟩ := Nat.exists_eq_add_one.mpr (Nat.zero_lt_of_lt hfuel)
    have hp : p = 0 := hl
    rw [Heap.walkDevices, if_pos hp]
  | cons d ds ih =>
    obtain ⟨fuel, rfl⟩ := Nat.exists_eq_add_one.mpr (Nat.zero_lt_of_lt hfuel)
    obtain ⟨rfl, hne, hrest⟩ := hl
    rw [Heap.walkDevices, if_neg hne, ih hrest (by simpa using hfuel)]
    rfl

theorem size_pos (f : BusForest) : 0 < f.size := by
  cases f with
  | nil => exact Nat.one_pos
  | node a children next => exact Nat.succ_pos _

/-- The walk is the descent, as long as it comes to no bus again. -/
theorem walkFrom_held {visited : List Ptr} {fuel : Nat} (hheld : f.Held h p)
    (hnodup : (f.items.map Prod.fst).Nodup)
    (hvisited : ∀ q ∈ f.items.map Prod.fst, q ∉ visited) (hfuel : f.size ≤ fuel) :
    h.walkFrom fuel p visited = some (f.descent.flatMap Prod.snd) := by
  induction f generalizing p visited fuel with
  | nil =>
    obtain ⟨fuel, rfl⟩ := Nat.exists_eq_add_one.mpr hfuel
    have hp : p = 0 := hheld
    rw [Heap.walkFrom, if_pos hp]
    rfl
  | node a children next ihc ihn =>
    obtain ⟨fuel, rfl⟩ := Nat.exists_eq_add_one.mpr (Nat.zero_lt_of_lt hfuel)
    obtain ⟨rfl, hne, hdevs, hchildren, hnext⟩ := hheld
    rw [BusForest.size] at hfuel
    rw [Forest.items, List.map_cons, List.map_append] at hnodup hvisited
    obtain ⟨hfresh, hrest⟩ := List.nodup_cons.mp hnodup
    obtain ⟨hnodupc, hnodupn, -⟩ := List.nodup_append.mp hrest
    -- the array may be full, but it never holds a bus that is still to come
    have hlater : ∀ q ∈ children.items.map Prod.fst ++ next.items.map Prod.fst,
        q ∉ if visited.length < 64 then visited ++ [a.1] else visited := by
      intro q hq hmem
      have hold : q ∉ visited := hvisited q (List.mem_cons_of_mem _ hq)
      split at hmem
      · rcases List.mem_append.mp hmem with hin | hcur
        · exact hold hin
        · exact hfresh (List.mem_singleton.mp hcur ▸ hq)
      · exact hold hmem
    have hpos := size_pos children
    have hposn := size_pos next
    have hdevices : h.walkDevices fuel (h.bus a.1).devices = some a.2 := walkDevices_linked hdevs (by omega)
    rw [Heap.walkFrom, if_neg hne, if_neg (hvisited a.1 List.mem_cons_self), hdevices]
    cases children with
    | nil =>
      have hnil : (h.bus a.1).children = 0 := hchildren
      have hroom : BusForest.size next ≤ fuel := by omega
      have hwalk := ihn hnext hnodupn (fun q hq => hlater q (List.mem_append_right _ hq)) hroom
      rw [if_neg (not_not.mpr hnil), Forest.descent, List.flatMap_cons]
      simp only [Option.bind_eq_bind, Option.bind_some, hwalk]
      rfl
    | node b kids siblings =>
      have hhead : (h.bus a.1).children ≠ 0 := by
        obtain ⟨heq, hne, -⟩ := hchildren
        exact heq ▸ hne
      have hroom : BusForest.size (Forest.node b kids siblings) ≤ fuel := by omega
      have hwalk := ihc hchildren hnodupc (fun q hq => hlater q (List.mem_append_left _ hq)) hroom
      rw [if_pos hhead, Forest.descent, List.flatMap_cons]
      simp only [Option.bind_eq_bind, Option.bind_some, hwalk]
      rfl

theorem calls_iff {start : Ptr} {calls : List Ptr} (hl : Layout h f start) :
    h.Calls start calls ↔ calls = f.descent.flatMap Prod.snd := by
  have hwalk : ∀ fuel, f.size ≤ fuel → h.walkBuses fuel start = some (f.descent.flatMap Prod.snd) :=
    fun fuel hfuel =>
    walkFrom_held hl.held hl.nodup_buses (fun _ _ => List.not_mem_nil) hfuel
  constructor
  · rintro ⟨n, hn⟩
    have hboth := (hn _ (Nat.le_max_left n f.size)).symm.trans (hwalk _ (Nat.le_max_right n f.size))
    exact Option.some.inj hboth
  · rintro rfl
    exact ⟨f.size, hwalk⟩

/-- The callback gets every device exactly once if and only if no bus with child buses has a
sibling behind it that has a device on it or below. -/
theorem walk_once_iff {start : Ptr} (hl : Layout h f start) :
    (∃ calls, h.Calls start calls ∧ ∀ d ∈ f.devices, calls.count d = 1) ↔ f.EndsAtParents Prod.snd := by
  have hnodup := ((Forest.descent_sublist f).flatMap Prod.snd).nodup hl.nodup_devices
  rw [← Forest.descent_covers_iff hl.nodup_devices]
  constructor
  · rintro ⟨calls, hcalls, honce⟩ d hd
    rw [← (calls_iff hl).mp hcalls]
    exact List.count_pos_iff.mp (by rw [honce d hd]; exact Nat.one_pos)
  · exact fun hall => ⟨_, (calls_iff hl).mpr rfl, fun d hd => List.count_eq_one_of_mem hnodup (hall d hd)⟩

/-! A tree that the walk does not finish. -/

/-- Bus 0 has bridges to the buses 1 and 3, bus 1 one to bus 2, bus 3 a network card. -/
def threeBridges : Config := fun address =>
  if address = 0x80000000 ∨ address = 0x80000800 ∨ address = 0x80010000 then 0x12378086
  else if address = 0x80000008 ∨ address = 0x80000808 ∨ address = 0x80010008 then 0x06040000
  else if address = 0x8000000C ∨ address = 0x8000080C ∨ address = 0x8001000C then 0x00010000
  else if address = 0x80000018 then 0x00010100
  else if address = 0x80000818 then 0x00030300
  else if address = 0x80010018 then 0x00020200
  else if address = 0x80030000 then 0x100E8086
  else if address = 0x80030008 then 0x02000000
  else if address = 0x8003000C then 0
  else 0xffffffff

def threeBridgesRoot : PciBus :=
  ⟨0, 0, 0, [newDev threeBridges 0 (0, 0), newDev threeBridges 0 (1, 0)],
    [⟨1, 1, 1, [newDev threeBridges 1 (0, 0)], [emptyBus 2]⟩, ⟨3, 3, 3, [newDev threeBridges 3 (0, 0)], []⟩]⟩

theorem scan_threeBridges :
    scan threeBridges 0 = [(0, 0), (1, 0)] ∧ bridges threeBridges 0 [(0, 0), (1, 0)] =
      [((0, 0), 1), ((1, 0), 3)] ∧
    scan threeBridges 1 = [(0, 0)] ∧ bridges threeBridges 1 [(0, 0)] = [((0, 0), 2)] ∧
    scan threeBridges 2 = [] ∧
    scan threeBridges 3 = [(0, 0)] ∧ bridges threeBridges 3 [(0, 0)] = [] := by
  decide +kernel

theorem enumarate_threeBridges : pciEnumarate threeBridges 3 = some threeBridgesRoot := by
  obtain ⟨hscan0, hbridges0, hscan1, hbridges1, hscan2, hscan3, hbridges3⟩ := scan_threeBridges
  have hbus2 : enumeratePcibus threeBridges 1 (emptyBus 2) = some (emptyBus 2) := by
    rw [enumeratePcibus_succ, hscan2, record_nil]
  have hbus3 : enumeratePcibus threeBridges 2 (emptyBus 3) =
    some ⟨3, 3, 3, [newDev threeBridges 3 (0, 0)], []⟩ := by
    rw [enumeratePcibus_succ, hscan3, record, hbridges3]
    rfl
  have hbus1 : enumeratePcibus threeBridges 2 (emptyBus 1) = some ⟨1, 1, 1, [newDev threeBridges 1 (0, 0)],
    [emptyBus 2]⟩ := by
    rw [enumeratePcibus_succ, hscan1, record, hbridges1, List.mapM_cons, List.mapM_nil, hbus2]
    rfl
  have hroot : enumeratePcibus threeBridges 3 (emptyBus 0) = some threeBridgesRoot := by
    rw [enumeratePcibus_succ, hscan0, record, hbridges0, List.mapM_cons, List.mapM_cons, List.mapM_nil,
      hbus1, hbus3]
    rfl
  exact hroot

def threeBridgesHeap : Heap where
  bus p :=
    if p = 1 then ⟨0, 0, 0, 2, 0, 5⟩
    else if p = 2 then ⟨1, 1, 1, 3, 4, 7⟩
    else if p = 3 then ⟨2, 2, 2, 0, 0, 0⟩
    else ⟨3, 3, 3, 0, 0, 8⟩
  dev d :=
    if d = 5 then ⟨newDev threeBridges 0 (0, 0), 6⟩
    else if d = 6 then ⟨newDev threeBridges 0 (1, 0), 0⟩
    else if d = 7 then ⟨newDev threeBridges 1 (0, 0), 0⟩
    else ⟨newDev threeBridges 3 (0, 0), 0⟩

/-- The last bus of the root. -/
def cardBus : BusForest := .node (4, [8]) .nil .nil

def threeBridgesForest : BusForest := .node (1, [5, 6]) (.node (2, [7]) (.node (3, []) .nil .nil) cardBus) .nil

theorem layout_cardBus : Layout threeBridgesHeap cardBus 4 where
  held := ⟨rfl, by decide, ⟨rfl, by decide, rfl⟩, rfl, rfl⟩
  nodup_buses := by decide
  nodup_devices := by decide

theorem layout_threeBridges : Layout threeBridgesHeap threeBridgesForest 1 where
  held := ⟨rfl, by decide, ⟨rfl, by decide, rfl, by decide, rfl⟩,
    ⟨rfl, by decide, ⟨rfl, by decide, rfl⟩, ⟨rfl, by decide, rfl, rfl, rfl⟩, layout_cardBus.held⟩, rfl⟩
  nodup_buses := by decide
  nodup_devices := by decide

/-- The same buses with the bridge to bus 3 on bus 1. -/
def bridgeChainHeap : Heap where
  bus p :=
    if p = 1 then ⟨0, 0, 0, 2, 0, 5⟩
    else if p = 2 then ⟨1, 1, 1, 3, 0, 7⟩
    else if p = 3 then ⟨2, 2, 2, 0, 4, 0⟩
    else ⟨3, 3, 3, 0, 0, 8⟩
  dev := threeBridgesHeap.dev

def bridgeChain : BusForest := .node (1, [5, 6]) (.node (2, [7]) (.node (3, []) .nil cardBus) .nil) .nil

theorem layout_bridgeChain : Layout bridgeChainHeap bridgeChain 1 where
  held := ⟨rfl, by decide, ⟨rfl, by decide, rfl, by decide, rfl⟩,
    ⟨rfl, by decide, ⟨rfl, by decide, rfl⟩, ⟨rfl, by decide, rfl, rfl,
      ⟨rfl, by decide, ⟨rfl, by decide, rfl⟩, rfl, rfl⟩⟩, rfl⟩, rfl⟩
  nodup_buses := by decide
  nodup_devices := by decide

/-- The walk goes down to bus 2 and on to bus 3, and meets each of the four devices. -/
theorem walk_once_bridgeChain : ∃ calls, bridgeChainHeap.Calls 1 calls ∧
    ∀ d ∈ bridgeChain.devices, calls.count d = 1 := by
  apply (walk_once_iff layout_bridgeChain).mpr
  have hlast : (Forest.node (3, []) .nil cardBus).EndsAtParents Prod.snd :=
    Forest.endsAtParents_leaf.mpr (Forest.endsAtParents_leaf.mpr (Forest.endsAtParents_of_nil rfl))
  exact (Forest.endsAtParents_parent (by intro h; cases h)).mpr
    ⟨rfl, (Forest.endsAtParents_parent (by intro h; cases h)).mpr ⟨rfl, hlast⟩⟩

/-- The walk goes down to bus 2 and never comes to the card on bus 3. -/
theorem card_missed : pciEnumarate threeBridges 3 = some threeBridgesRoot ∧
    threeBridgesForest.buses threeBridgesHeap = [threeBridgesRoot] ∧
    ¬ ∃ calls, threeBridgesHeap.Calls 1 calls ∧ ∀ d ∈ threeBridgesForest.devices, calls.count d = 1 := by
  refine ⟨enumarate_threeBridges, rfl, ?_⟩
  rintro ⟨calls, hcalls, honce⟩
  have hcard := honce 8 (by decide)
  rw [(calls_iff layout_threeBridges).mp hcalls] at hcard
  exact absurd hcard (by decide)

end GeckoOS.Drivers.Pci
