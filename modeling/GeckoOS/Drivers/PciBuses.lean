import GeckoOS.Drivers.Pci
import GeckoOS.Lib.Unroll
import Mathlib.Data.List.ProdSigma
import Mathlib.Data.UInt

/-! The bus tree that the enumeration builds is the unrolling of the graph of buses
along the byte that `alloc_new_bus` reads. -/
namespace GeckoOS.Drivers.Pci
open Lib

/-- A device and a function of it. -/
abbrev Slot := Nat × Nat

def devfn (e : Slot) : Nat := e.1 <<< 3 ||| e.2 &&& 7

section Slots
variable (cfg : Config) (b : UInt8) (e : Slot)

def typeOf : UInt8 := pciReadb cfg b.toNat e.1 e.2 htype

/-- Something answers at the slot. -/
def Present : Prop := pciReadl cfg b.toNat e.1 e.2 vendid ≠ 0xffffffff

instance : Decidable (Present cfg b e) := inferInstanceAs (Decidable (_ ≠ _))

def IsBridge : Prop := typeOf cfg b e &&& 0x7f = 1

instance : Decidable (IsBridge cfg b e) := inferInstanceAs (Decidable (_ = _))

/-- The functions there are: those that answer, and past the first one only of a device with
the multifunction bit. -/
def IsFunction : Prop :=
  e.1 < 32 ∧ e.2 < 8 ∧ Present cfg b e ∧ (e.2 = 0 ∨ Present cfg b (e.1, 0) ∧ typeOf cfg b (e.1, 0) &&& 0x80 ≠ 0)

/-- The scan of the bus comes to the slot. -/
def Scanned : Prop :=
  e.1 < 32 ∧ e.2 < 8 ∧ typeOf cfg b e ≠ 0xff ∧
    ∀ fn < e.2, typeOf cfg b (e.1, fn) ≠ 0xff ∧ typeOf cfg b (e.1, fn) &&& 0x80 ≠ 0

/-- A bridge leads to the bus of its secondary bus number. -/
def Leads (c : UInt8) : Prop := IsFunction cfg b e ∧ IsBridge cfg b e ∧ pciReadb cfg b.toNat e.1 e.2 sBusnum = c

/-- The enumeration follows a bridge to the bus with the number in the byte that it reads. -/
def Follows (c : UInt8) : Prop :=
  Present cfg b e ∧ Scanned cfg b e ∧ IsBridge cfg b e ∧ pciReadb cfg b.toNat e.1 e.2 ssBusnum = c

end Slots

mutual
/-- The recorded functions of a bus and of the buses below, each with the number of its bus. -/
def PciBus.records : PciBus → List (UInt8 × Nat)
  | ⟨_, primary, _, devices, children⟩ => devices.map (fun d => (primary, d.devfn)) ++ allRecords children

def allRecords : List PciBus → List (UInt8 × Nat)
  | [] => []
  | bus :: buses => bus.records ++ allRecords buses
end

theorem devfn_eq {e : Slot} (h : e.2 < 8) : devfn e = e.1 * 8 + e.2 := by
  have hmod : e.2 &&& 7 = e.2 := by rw [Nat.and_two_pow_sub_one_eq_mod _ 3, Nat.mod_eq_of_lt h]
  rw [devfn, hmod, ← Nat.shiftLeft_add_eq_or_of_lt (i := 3) h, Nat.shiftLeft_eq]

/-- What `PCI_DEV` and `PCI_FN` read back. -/
theorem devfn_fields {e : Slot} (h : e.2 < 8) : devfn e >>> 3 = e.1 ∧ devfn e &&& 7 = e.2 := by
  rw [devfn_eq h, Nat.and_two_pow_sub_one_eq_mod _ 3, Nat.shiftRight_eq_div_pow]
  omega

theorem devfn_inj {e e' : Slot} (h : e.2 < 8) (h' : e'.2 < 8) (heq : devfn e = devfn e') : e = e' := by
  obtain ⟨hdev, hfn⟩ := devfn_fields h
  rw [heq, (devfn_fields h').1] at hdev
  rw [heq, (devfn_fields h').2] at hfn
  exact Prod.ext hdev.symm hfn.symm

section Scan
variable (cfg : Config) (b : UInt8)

/-- What the inner loop records of a device. -/
def scanFns (device : Nat) : List Nat → List Slot
  | [] => []
  | fn :: fns =>
    if typeOf cfg b (device, fn) = 0xff then []
    else (if Present cfg b (device, fn) then [(device, fn)] else []) ++
      if typeOf cfg b (device, fn) &&& 0x80 = 0 then [] else scanFns device fns

def scan : List Slot := (List.range 32).flatMap fun device => scanFns cfg b device (List.range 8)

/-- The buses that the bridges among some functions are followed to. -/
def bridges (es : List Slot) : List (Slot × UInt8) :=
  (es.filter fun e => IsBridge cfg b e).map fun e => (e, pciReadb cfg b.toNat e.1 e.2 ssBusnum)

end Scan

variable {cfg : Config} {b c : UInt8} {e : Slot} {device : Nat} {fns : List Nat}

theorem scanFns_sublist (device : Nat) (fns : List Nat) :
    (scanFns cfg b device fns).Sublist (fns.map (device, ·)) := by
  induction fns with
  | nil => exact .slnil
  | cons fn fns ih =>
    rw [scanFns, List.map_cons]
    split
    · exact List.nil_sublist _
    · have hrest : (if typeOf cfg b (device, fn) &&& 0x80 = 0 then [] else scanFns cfg b device fns).Sublist
          (fns.map (device, ·)) := by
        split
        · exact List.nil_sublist _
        · exact ih
      split
      · exact .cons_cons _ hrest
      · exact .cons _ hrest

theorem scan_sublist (cfg : Config) (b : UInt8) : (scan cfg b).Sublist (List.range 32 ×ˢ List.range 8) := by
  rw [scan]
  generalize List.range 32 = devices
  induction devices with
  | nil => exact .slnil
  | cons device devices ih =>
    rw [List.flatMap_cons, List.product_cons]
    exact (scanFns_sublist device _).append ih

theorem nodup_scan (cfg : Config) (b : UInt8) : (scan cfg b).Nodup :=
  (List.nodup_range.product List.nodup_range).sublist (scan_sublist cfg b)

theorem mem_scanFns (start count fn : Nat) : (device, fn) ∈ scanFns cfg b device (List.range' start count) ↔
    start ≤ fn ∧ fn < start + count ∧ Present cfg b (device, fn) ∧ typeOf cfg b (device, fn) ≠ 0xff ∧
      ∀ fn', start ≤ fn' → fn' < fn → typeOf cfg b (device, fn') ≠ 0xff ∧
      typeOf cfg b (device, fn') &&& 0x80 ≠ 0 := by
  induction count generalizing start with
  | zero =>
    simp [scanFns]
    omega
  | succ count ih =>
    rw [List.range'_succ, scanFns]
    by_cases htype : typeOf cfg b (device, start) = 0xff
    · rw [if_pos htype]
      refine iff_of_false List.not_mem_nil ?_
      rintro ⟨hle, -, -, hown, hearlier⟩
      cases Nat.eq_or_lt_of_le hle with
      | inl heq => exact hown (heq ▸ htype)
      | inr hlt => exact (hearlier start (Nat.le_refl _) hlt).1 htype
    · have hhere : (device, fn) ∈ (if Present cfg b (device, start) then [(device, start)] else []) ↔
          fn = start ∧ Present cfg b (device, fn) := by
        split
        · rename_i hpresent
          simp only [List.mem_singleton, Prod.mk.injEq, true_and]
          exact ⟨fun heq => ⟨heq, heq ▸ hpresent⟩, fun h => h.1⟩
        · rename_i hpresent
          exact iff_of_false List.not_mem_nil fun h => hpresent (h.1 ▸ h.2)
      have hlater : (device, fn) ∈
          (if typeOf cfg b (device, start) &&& 0x80 = 0 then [] else scanFns cfg b device
            (List.range' (start + 1) count)) ↔
          typeOf cfg b (device, start) &&& 0x80 ≠ 0 ∧
            (device, fn) ∈ scanFns cfg b device (List.range' (start + 1) count) := by
        split
        · rename_i hlast
          exact iff_of_false List.not_mem_nil fun h => h.1 hlast
        · rename_i hmore
          exact ⟨fun h => ⟨hmore, h⟩, fun h => h.2⟩
      rw [if_neg htype, List.mem_append, hhere, hlater, ih]
      constructor
      · rintro (⟨rfl, hpresent⟩ | ⟨hmore, hle, hlt, hpresent, hown, hearlier⟩)
        · exact ⟨Nat.le_refl _, by omega, hpresent, htype, fun fn' hle hlt => absurd hle (by omega)⟩
        · refine ⟨by omega, by omega, hpresent, hown, fun fn' hle' hlt' => ?_⟩
          cases Nat.eq_or_lt_of_le hle' with
          | inl heq => exact heq ▸ ⟨htype, hmore⟩
          | inr hlt'' => exact hearlier fn' hlt'' hlt'
      · rintro ⟨hle, hlt, hpresent, hown, hearlier⟩
        cases Nat.eq_or_lt_of_le hle with
        | inl heq => exact .inl ⟨heq.symm, hpresent⟩
        | inr hlt' =>
          refine .inr ⟨(hearlier start (Nat.le_refl _) hlt').2,
            hlt', by omega, hpresent, hown, fun fn' hle' => ?_⟩
          exact hearlier fn' (by omega)

theorem mem_scan : e ∈ scan cfg b ↔ Present cfg b e ∧ Scanned cfg b e := by
  obtain ⟨device, fn⟩ := e
  have hdevice : (device, fn) ∈ scan cfg b ↔ device < 32 ∧
    (device, fn) ∈ scanFns cfg b device (List.range' 0 8) := by
    rw [scan, List.mem_flatMap]
    constructor
    · rintro ⟨device', hlt, hmem⟩
      obtain ⟨_, _, heq⟩ := List.mem_map.mp ((scanFns_sublist device' _).subset hmem)
      cases heq
      exact ⟨List.mem_range.mp hlt, List.range_eq_range' ▸ hmem⟩
    · rintro ⟨hlt, hmem⟩
      exact ⟨device, List.mem_range.mpr hlt, List.range_eq_range' ▸ hmem⟩
  rw [hdevice, mem_scanFns]
  constructor
  · rintro ⟨hlt, -, hfn, hpresent, hown, hearlier⟩
    exact ⟨hpresent, hlt, by omega, hown, fun fn' => hearlier fn' (Nat.zero_le _)⟩
  · rintro ⟨hpresent, hlt, hfn, hown, hearlier⟩
    exact ⟨hlt, Nat.zero_le _, by omega, hpresent, hown, fun fn' _ => hearlier fn'⟩

theorem mem_bridges : (e, c) ∈ bridges cfg b (scan cfg b) ↔ Follows cfg b e c := by
  simp only [bridges, List.mem_map, List.mem_filter, mem_scan, decide_eq_true_eq]
  constructor
  · rintro ⟨_, ⟨⟨hpresent, hscanned⟩, hbridge⟩, heq⟩
    cases heq
    exact ⟨hpresent, hscanned, hbridge, rfl⟩
  · rintro ⟨hpresent, hscanned, hbridge, rfl⟩
    exact ⟨e, ⟨⟨hpresent, hscanned⟩, hbridge⟩, rfl⟩

theorem nodup_bridges (cfg : Config) (b : UInt8) : ((bridges cfg b (scan cfg b)).map Prod.fst).Nodup := by
  have hfst : (bridges cfg b (scan cfg b)).map Prod.fst = (scan cfg b).filter fun e => IsBridge cfg b e := by
    simp [bridges, Function.comp_def]
  rw [hfst]
  exact (nodup_scan cfg b).filter _

/-! ### What the loops build -/

section Build
variable (cfg : Config) (enumBus : PciBus → Option PciBus) (b : UInt8)

def newDev (e : Slot) : PciDev :=
  ⟨devfn e, pciReadb cfg b.toNat e.1 e.2 clas, pciReadl cfg b.toNat e.1 e.2 vendid >>> 16,
    pciReadl cfg b.toNat e.1 e.2 vendid &&& 0xffff⟩

def emptyBus (c : UInt8) : PciBus := ⟨c, c, c, [], []⟩

/-- Some functions of bus `b` recorded, and the buses behind the bridges among them enumerated. -/
def record (es : List Slot) (bus : PciBus) : Option PciBus :=
  ((bridges cfg b es).mapM fun s => enumBus (emptyBus s.2)).map fun kids =>
    { bus with devices := bus.devices ++ es.map (newDev cfg b), children := bus.children ++ kids }

end Build

variable {enumBus : PciBus → Option PciBus} {bus : PciBus} {es es' : List Slot}

@[simp] theorem record_nil : record cfg enumBus b [] bus = some bus := by
  cases bus
  simp [record, bridges]

theorem record_append : record cfg enumBus b (es ++ es') bus =
    (record cfg enumBus b es bus).bind (record cfg enumBus b es') := by
  have hbridges : bridges cfg b (es ++ es') = bridges cfg b es ++ bridges cfg b es' := by simp [bridges]
  unfold record
  rw [hbridges, List.mapM_append]
  cases (bridges cfg b es).mapM fun s => enumBus (emptyBus s.2) with
  | none => rfl
  | some kids =>
    cases (bridges cfg b es').mapM fun s => enumBus (emptyBus s.2) with
    | none => rfl
    | some kids' => simp [List.append_assoc]

/-- The bus has the number in both fields that the reads use. -/
structure Numbered (b : UInt8) (bus : PciBus) : Prop where
  bus_eq : bus.bus = b
  primary_eq : bus.primary = b

theorem numbered_record {bus' : PciBus} (hb : Numbered b bus) (h : record cfg enumBus b es bus = some bus') :
    Numbered b bus' := by
  obtain ⟨kids, _, rfl⟩ := Option.map_eq_some_iff.mp h
  exact ⟨hb.bus_eq, hb.primary_eq⟩

theorem enumeratePcidev_eq {fn : Nat} (hb : Numbered b bus) (hfn : fn < 8) :
    enumeratePcidev cfg enumBus bus device fn =
      record cfg enumBus b (if Present cfg b (device, fn) then [(device, fn)] else []) bus := by
  obtain ⟨rfl, hprimary⟩ := hb
  obtain ⟨hdev, hfn'⟩ := devfn_fields (e := (device, fn)) hfn
  by_cases hpresent : Present cfg bus.bus (device, fn)
  · have htmp : ¬ pciReadl cfg bus.primary.toNat device fn vendid = 0xffffffff := hprimary ▸ hpresent
    simp only [enumeratePcidev, if_neg htmp, if_pos hpresent]
    by_cases hbridge : IsBridge cfg bus.bus (device, fn)
    · have htype : pciReadb cfg bus.primary.toNat device fn htype &&& 0x7f = 1 := hprimary ▸ hbridge
      have hsecondary : pciReadb cfg bus.bus.toNat (devfn (device, fn) >>> 3)
        (devfn (device, fn) &&& 7) ssBusnum =
          pciReadb cfg bus.bus.toNat device fn ssBusnum := by rw [hdev, hfn']
      have halloc (self : PciDev) (h : self.devfn = devfn (device, fn)) : allocNewBus cfg enumBus bus self =
          (enumBus (emptyBus (pciReadb cfg bus.bus.toNat device fn ssBusnum))).map fun child =>
            { bus with children := bus.children ++ [child] } := by
        simp only [allocNewBus, h, hsecondary]
        exact (Option.map_eq_bind ..).symm
      have hbridges : bridges cfg bus.bus [(device, fn)] =
          [((device, fn), pciReadb cfg bus.bus.toNat device fn ssBusnum)] := by simp [bridges, hbridge]
      rw [if_pos htype, halloc _ rfl, record, hbridges]
      simp only [List.mapM_cons, List.mapM_nil]
      cases enumBus (emptyBus (pciReadb cfg bus.bus.toNat device fn ssBusnum)) with
      | none => rfl
      | some child => simp [hprimary, newDev, devfn]
    · have htype : ¬ pciReadb cfg bus.primary.toNat device fn htype &&& 0x7f = 1 := hprimary ▸ hbridge
      simp only [if_neg htype]
      simp [record, bridges, hbridge, hprimary, newDev, devfn]
  · have htmp : pciReadl cfg bus.primary.toNat device fn vendid = 0xffffffff :=
      hprimary ▸ Decidable.not_not.mp hpresent
    rw [enumeratePcidev, if_pos htmp, if_neg hpresent, record_nil]

theorem enumerateFns_eq (hb : Numbered b bus) (hfns : ∀ fn ∈ fns, fn < 8) :
    enumerateFns cfg enumBus device fns bus = record cfg enumBus b (scanFns cfg b device fns) bus := by
  induction fns generalizing bus with
  | nil => exact record_nil.symm
  | cons fn fns ih =>
    have htype : pciReadb cfg bus.primary.toNat device fn htype = typeOf cfg b (device, fn) := by
      rw [hb.primary_eq]
      rfl
    rw [enumerateFns, scanFns, htype]
    by_cases hnone : typeOf cfg b (device, fn) = 0xff
    · simp only [if_pos hnone]
      exact record_nil.symm
    · simp only [if_neg hnone]
      rw [record_append, enumeratePcidev_eq hb (hfns fn (List.mem_cons_self ..))]
      refine Option.bind_congr fun bus' hbus' => ?_
      split
      · exact record_nil.symm
      · exact ih (numbered_record hb hbus') fun fn' hfn' => hfns fn' (List.mem_cons_of_mem _ hfn')

theorem enumeratePcibus_succ (cfg : Config) (depth : Nat) (b : UInt8) :
    enumeratePcibus cfg (depth + 1) (emptyBus b) = record cfg (enumeratePcibus cfg depth) b (scan cfg b)
      (emptyBus b) := by
  have hdevices : ∀ {devices : List Nat} {bus : PciBus}, Numbered b bus →
      devices.foldlM (fun bus device =>
        enumerateFns cfg (enumeratePcibus cfg depth) device (List.range 8) bus) bus =
        record cfg (enumeratePcibus cfg depth) b (devices.flatMap fun device =>
          scanFns cfg b device (List.range 8)) bus := by
    intro devices
    induction devices with
    | nil => exact fun _ => record_nil.symm
    | cons device devices ih =>
      intro bus hb
      rw [List.foldlM_cons, List.flatMap_cons, record_append, enumerateFns_eq hb fun fn hfn =>
        List.mem_range.mp hfn]
      exact Option.bind_congr fun bus' hbus' => ih (numbered_record hb hbus')
  exact hdevices ⟨rfl, rfl⟩

/-- The records of the tree are those of the unrolling of the bus graph. -/
theorem enumeratePcibus_records (cfg : Config) (depth : Nat) (b : UInt8) :
    (enumeratePcibus cfg depth (emptyBus b)).map PciBus.records =
      (unroll (fun b => bridges cfg b (scan cfg b)) depth b).map
        (List.flatMap fun s => ((scan cfg s.2).map devfn).map (s.2, ·)) := by
  induction depth generalizing b with
  | zero => rfl
  | succ depth ih =>
    have hgather : ∀ ss : List (Slot × UInt8),
        (ss.mapM fun s => enumeratePcibus cfg depth (emptyBus s.2)).map allRecords =
          gather (fun s => (enumeratePcibus cfg depth (emptyBus s.2)).map PciBus.records) ss := by
      intro ss
      induction ss with
      | nil => rfl
      | cons s ss ihs =>
        rw [List.mapM_cons, gather, ← ihs]
        cases enumeratePcibus cfg depth (emptyBus s.2) with
        | none => rfl
        | some bus =>
          cases ss.mapM fun s => enumeratePcibus cfg depth (emptyBus s.2) with
          | none => rfl
          | some buses => rfl
    have hwalks (s : Slot × UInt8) :
        (enumeratePcibus cfg depth (emptyBus s.2)).map PciBus.records =
          ((unroll (fun b => bridges cfg b (scan cfg b)) depth s.2).map (List.map (Prod.map (s.1 :: ·) id))).map
            (List.flatMap fun s => ((scan cfg s.2).map devfn).map (s.2, ·)) := by
      rw [ih s.2, Option.map_map]
      refine congrArg (Option.map · _) (funext fun l => ?_)
      rw [Function.comp_apply, List.flatMap_map]
      rfl
    rw [enumeratePcibus_succ, record, unroll, Option.map_map, Option.map_map]
    calc
      _ = (((bridges cfg b (scan cfg b)).mapM fun s => enumeratePcibus cfg depth (emptyBus s.2)).map
        allRecords).map
            (((scan cfg b).map devfn).map (b, ·) ++ ·) := by
        rw [Option.map_map]
        refine congrArg (Option.map · _) (funext fun kids => ?_)
        show (([] ++ (scan cfg b).map (newDev cfg b)).map fun d : PciDev => (b, d.devfn)) ++ allRecords
          ([] ++ kids) = _
        rw [List.nil_append, List.nil_append, List.map_map, Function.comp_apply, List.map_map]
        rfl
      _ = _ := by
        rw [hgather, funext hwalks, gather_flatMap, Option.map_map]
        rfl

instance finite_uInt8 : Finite UInt8 := .of_injective UInt8.toFin fun _ _ => UInt8.toFin_inj.mp

theorem edge_eq (cfg : Config) : Edge (fun b => bridges cfg b (scan cfg b)) = Follows cfg := by
  funext b e c
  exact propext mem_bridges

/-- The enumeration returns if and only if the buses that it follows bridges to form no cycle. -/
theorem enumerates_iff (cfg : Config) : (∃ depth root, pciEnumarate cfg depth = some root) ↔
    ∀ chain b, Run (Follows cfg) 0 chain b → ∀ loop, Run (Follows cfg) b loop b → loop = [] := by
  have hunrolls : (∃ n l, unroll (fun b => bridges cfg b (scan cfg b)) n (0 : UInt8) = some l) ↔
    _ := unrolls_iff
  rw [edge_eq] at hunrolls
  rw [← hunrolls]
  refine exists_congr fun depth => ?_
  have hrecords := enumeratePcibus_records cfg depth 0
  constructor
  · rintro ⟨root, hroot⟩
    rw [show enumeratePcibus cfg depth (emptyBus 0) = some root from hroot] at hrecords
    obtain ⟨l, hl, _⟩ := Option.map_eq_some_iff.mp hrecords.symm
    exact ⟨l, hl⟩
  · rintro ⟨l, hl⟩
    rw [hl] at hrecords
    obtain ⟨root, hroot, _⟩ := Option.map_eq_some_iff.mp hrecords
    exact ⟨root, hroot⟩

/-- A function there is on a bus is recorded once if and only if the scan comes to it and
exactly one chain of bridges is followed to the bus. -/
theorem recorded_once_iff {depth : Nat} {root : PciBus} (hroot : pciEnumarate cfg depth = some root)
    (he : IsFunction cfg b e) :
    root.records.count (b, devfn e) = 1 ↔ Scanned cfg b e ∧ ∃! chain, Run (Follows cfg) 0 chain b := by
  have hrecords := enumeratePcibus_records cfg depth 0
  rw [show enumeratePcibus cfg depth (emptyBus 0) = some root from hroot] at hrecords
  obtain ⟨l, hl, hitems⟩ := Option.map_eq_some_iff.mp hrecords.symm
  have hnodup : ((scan cfg b).map devfn).Nodup := by
    refine List.Nodup.map_on ?_ (nodup_scan cfg b)
    intro e he e' he' heq
    exact devfn_inj (mem_scan.mp he).2.2.1 (mem_scan.mp he').2.2.1 heq
  have hscan : ((scan cfg b).map devfn).count (devfn e) = 1 ↔ Scanned cfg b e := by
    constructor
    · intro h
      obtain ⟨e', he', heq⟩ := List.mem_map.mp (List.count_pos_iff.mp (h ▸ Nat.one_pos))
      rw [← devfn_inj (mem_scan.mp he').2.2.1 he.2.1 heq]
      exact (mem_scan.mp he').2
    · intro h
      exact List.count_eq_one_of_mem hnodup (List.mem_map.mpr ⟨e, mem_scan.mpr ⟨he.2.2.1, h⟩, rfl⟩)
  have hbus : (l.map Prod.snd).count b = 1 ↔ ∃! chain, Run (Follows cfg) 0 chain b := by
    rw [count_unroll_eq_one (nodup_bridges cfg) hl, edge_eq]
  rw [← hitems, count_items fun b => (scan cfg b).map devfn, ← hbus, ← hscan]
  constructor
  · intro h
    exact ⟨Nat.eq_one_of_mul_eq_one_left h, Nat.eq_one_of_mul_eq_one_right h⟩
  · rintro ⟨hitem, hbus⟩
    rw [hitem, hbus]

/-- Everything there is on the buses that bridges lead to is recorded exactly once if and only
if the chains of bridges that are followed meet no cycle, the scan comes to each such function,
and exactly one followed chain ends at its bus. -/
theorem enumeration_complete_iff (cfg : Config) :
    (∃ depth root, pciEnumarate cfg depth = some root ∧
      ∀ chain b e, Run (Leads cfg) 0 chain b → IsFunction cfg b e → root.records.count (b, devfn e) = 1) ↔
    (∀ chain b, Run (Follows cfg) 0 chain b → ∀ loop, Run (Follows cfg) b loop b → loop = []) ∧
      ∀ chain b e, Run (Leads cfg) 0 chain b → IsFunction cfg b e →
        Scanned cfg b e ∧ ∃! followed, Run (Follows cfg) 0 followed b := by
  constructor
  · rintro ⟨depth, root, hroot, honce⟩
    refine ⟨(enumerates_iff cfg).mp ⟨depth, root, hroot⟩, fun chain b e hchain he => ?_⟩
    exact (recorded_once_iff hroot he).mp (honce chain b e hchain he)
  · rintro ⟨hcycles, hfollowed⟩
    obtain ⟨depth, root, hroot⟩ := (enumerates_iff cfg).mpr hcycles
    refine ⟨depth, root, hroot, fun chain b e hchain he => ?_⟩
    exact (recorded_once_iff hroot he).mpr (hfollowed chain b e hchain he)

/-- One bridge on bus 0 that has not been configured: its bus numbers are all 0. -/
def unconfigured : Config := fun address =>
  if address = 0x80000000 then 0x12378086
  else if address = 0x80000008 then 0x06040000
  else if address = 0x8000000C then 0x00010000
  else if address = 0x80000018 then 0
  else 0xffffffff

theorem unconfigured_bridge_loops : ¬ ∃ depth root, pciEnumarate unconfigured depth = some root ∧
    ∀ chain b e, Run (Leads unconfigured) 0 chain b → IsFunction unconfigured b e →
      root.records.count (b, devfn e) = 1 := by
  rintro ⟨depth, root, hroot, -⟩
  have hbridge : Follows unconfigured 0 (0, 0) 0 := by
    refine ⟨?_, ⟨Nat.zero_lt_succ _, Nat.zero_lt_succ _, ?_, fun fn hfn =>
      absurd hfn (Nat.not_lt_zero fn)⟩, ?_, ?_⟩
    all_goals decide +kernel
  have hloop := (enumerates_iff unconfigured).mp ⟨depth, root, hroot⟩ [] 0 (.nil 0) _ (.cons hbridge (.nil 0))
  cases hloop

end GeckoOS.Drivers.Pci
