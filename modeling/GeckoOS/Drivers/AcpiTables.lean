import GeckoOS.Lib.Bytes
import GeckoOS.Lib.CInt
import GeckoOS.Lib.Last

/-! `acpi_init`: the tables that it picks from the list of the XSDT or of the RSDT. Every
`mmio_map` succeeds, so a table is known by its physical address and read there. -/
namespace GeckoOS.Drivers.Acpi
open Lib

/-! Signatures as they are compared, and the offsets that are read. -/

def xsdtSignature : Nat := 0x54445358
def rsdtSignature : Nat := 0x54445352
def madtSignature : Nat := 0x43495041
/-- The case for the FADT in the loop over the XSDT. -/
def xsdtFadtCase : Nat := 0x50434141
/-- The case for the FADT in the loop over the RSDT. -/
def rsdtFadtCase : Nat := 0x50434146

def headerSize : Nat := 36

section Reads
variable (mem : View) (p : Nat)

def signature : Nat := mem.load32 p
def length : Nat := mem.load32 (p + 4)
def revision : Nat := (mem (p + 15)).toNat
def rsdtAddr : Nat := mem.load32 (p + 16)
def xsdtAddr : Nat := mem.load64 (p + 24)

end Reads

/-- The tables that are mapped. -/
structure Tables where
  madt : Option Nat
  fadt : Option Nat
  deriving DecidableEq

/-- A pass of either loop over a table, with the case for the FADT. -/
def pick (fadtCase : Nat) (mem : View) (s : Tables) (table : Nat) : Tables :=
  if signature mem table = madtSignature then { s with madt := some table }
  else if signature mem table = fadtCase then { s with fadt := some table }
  else s

def xsdtPass : View → Tables → Nat → Tables := pick xsdtFadtCase
def rsdtPass : View → Tables → Nat → Tables := pick rsdtFadtCase

/-- `(length - sizeof(struct acpi_header)) / width` as an `int`. -/
def entryCount (length width : Nat) : Int := int32 (sub64 length headerSize / width)

def xsdtEntries (mem : View) (xsdt : Nat) : List Nat :=
  (List.range (entryCount (length mem xsdt) 8).toNat).map fun i => mem.load64 (xsdt + headerSize + 8 * i)

def rsdtEntries (mem : View) (rsdt : Nat) : List Nat :=
  (List.range (entryCount (length mem rsdt) 4).toNat).map fun i => mem.load32 (rsdt + headerSize + 4 * i)

/-- The loop over the XSDT, for revision 2 and later. -/
def viaXsdt (mem : View) (rsdp : Nat) : Tables :=
  if 2 ≤ revision mem rsdp ∧ xsdtAddr mem rsdp ≠ 0 ∧ signature mem (xsdtAddr mem rsdp) = xsdtSignature then
    (xsdtEntries mem (xsdtAddr mem rsdp)).foldl (xsdtPass mem) ⟨none, none⟩
  else ⟨none, none⟩

/-- `acpi_init` behind a root pointer: the loop over the RSDT runs if there is no MADT yet. -/
def acpiInit (mem : View) (rsdp : Nat) : Tables :=
  let s := viaXsdt mem rsdp
  if s.madt = none ∧ rsdtAddr mem rsdp ≠ 0 ∧ signature mem (rsdtAddr mem rsdp) = rsdtSignature then
    (rsdtEntries mem (rsdtAddr mem rsdp)).foldl (rsdtPass mem) s
  else s

/-! Lists of tables as the firmware publishes them. -/

/-- A table with this signature whose entries of `width` bytes are the list. -/
structure Lists (mem : View) (table sig width : Nat) (load : Nat → Nat) (tables : List Nat) : Prop where
  nonnull : table ≠ 0
  signature_eq : signature mem table = sig
  length_eq : length mem table = headerSize + width * tables.length
  entry : ∀ i (h : i < tables.length), load (table + headerSize + width * i) = tables[i]

/-- Revision 0 or 1 with an RSDT. -/
structure ByRsdt (mem : View) (rsdp : Nat) (tables : List Nat) : Prop where
  revision_lt : revision mem rsdp < 2
  rsdt : Lists mem (rsdtAddr mem rsdp) rsdtSignature 4 mem.load32 tables

/-- Revision 2 or later with an XSDT, and either no RSDT or one with the same list. -/
structure ByXsdt (mem : View) (rsdp : Nat) (tables : List Nat) : Prop where
  le_revision : 2 ≤ revision mem rsdp
  xsdt : Lists mem (xsdtAddr mem rsdp) xsdtSignature 8 mem.load64 tables
  rsdt : rsdtAddr mem rsdp = 0 ∨ Lists mem (rsdtAddr mem rsdp) rsdtSignature 4 mem.load32 tables

variable {mem m m' : View} {rsdp rsdp' sig fadtCase : Nat} {tables : List Nat} {s : Tables}

/-- The last table with a signature. -/
def lastWith (mem : View) (sig : Nat) (tables : List Nat) : Option Nat :=
  findLast (fun t => signature mem t = sig) tables

/-- Each loop picks the last tables with its two signatures. -/
theorem foldl_pick (hcase : fadtCase ≠ madtSignature) (tables : List Nat) (s : Tables) :
    tables.foldl (pick fadtCase mem) s =
    ⟨(lastWith mem madtSignature tables).or s.madt, (lastWith mem fadtCase tables).or s.fadt⟩ := by
  induction tables generalizing s with
  | nil => rfl
  | cons t tables ih =>
    rw [List.foldl_cons, ih, lastWith, lastWith, lastWith, lastWith, findLast_cons, findLast_cons,
      Option.or_assoc, Option.or_assoc, pick]
    by_cases hmadt : signature mem t = madtSignature
    · rw [if_pos hmadt, if_pos hmadt, if_neg fun h => hcase (h.symm.trans hmadt)]
      rfl
    · rw [if_neg hmadt, if_neg hmadt]
      by_cases hfadt : signature mem t = fadtCase
      · rw [if_pos hfadt, if_pos hfadt]
        rfl
      · rw [if_neg hfadt, if_neg hfadt]
        rfl

/-- A table that fits its length has the entries that it says. -/
theorem entryCount_eq {n width : Nat} (hwidth : 4 ≤ width) (hlength : headerSize + width * n < 2^32) :
    entryCount (headerSize + width * n) width = n := by
  have hn : n < 2^31 := by
    have := Nat.mul_le_mul_right n hwidth
    omega
  rw [entryCount, sub64_eq (by omega) (Nat.le_add_right _ _), Nat.add_sub_cancel_left,
    Nat.mul_div_cancel_left _ (by omega),
    int32_eq hn]

theorem Lists.entries {table width : Nat} {load : Nat → Nat} (h : Lists mem table sig width load tables)
    (hwidth : 4 ≤ width) :
    (List.range (entryCount (length mem table) width).toNat).map
      (fun i => load (table + headerSize + width * i)) = tables := by
  have hlt : length mem table < 2^32 := View.load32_lt mem (table + 4)
  rw [h.length_eq] at hlt ⊢
  rw [entryCount_eq hwidth hlt, Int.toNat_natCast]
  refine List.ext_getElem (by simp) fun i hi hi' => ?_
  rw [List.getElem_map, List.getElem_range]
  exact h.entry i hi'

theorem viaXsdt_eq (h : ByXsdt m rsdp tables) :
    viaXsdt m rsdp = ⟨lastWith m madtSignature tables, lastWith m xsdtFadtCase tables⟩ := by
  have hentries : xsdtEntries m (xsdtAddr m rsdp) = tables := h.xsdt.entries (by decide)
  rw [viaXsdt, if_pos ⟨h.le_revision, h.xsdt.nonnull, h.xsdt.signature_eq⟩, hentries, xsdtPass,
    foldl_pick (by decide), Option.or_none,
    Option.or_none]

theorem acpiInit_rsdt (h : ByRsdt m rsdp tables) :
    acpiInit m rsdp = ⟨lastWith m madtSignature tables, lastWith m rsdtFadtCase tables⟩ := by
  have hnone : viaXsdt m rsdp = ⟨none, none⟩ := if_neg fun hgo => Nat.not_le.mpr h.revision_lt hgo.1
  have hentries : rsdtEntries m (rsdtAddr m rsdp) = tables := h.rsdt.entries (by decide)
  rw [acpiInit, hnone]
  simp only
  rw [if_pos ⟨trivial, h.rsdt.nonnull, h.rsdt.signature_eq⟩, hentries, rsdtPass, foldl_pick (by decide),
    Option.or_none, Option.or_none]

/-- Without a MADT the list of the RSDT is gone through as well. -/
theorem acpiInit_xsdt (h : ByXsdt m rsdp tables) : acpiInit m rsdp = ⟨lastWith m madtSignature tables,
    if rsdtAddr m rsdp ≠ 0 ∧ lastWith m madtSignature tables = none then
      (lastWith m rsdtFadtCase tables).or (lastWith m xsdtFadtCase tables)
    else lastWith m xsdtFadtCase tables⟩ := by
  rw [acpiInit, viaXsdt_eq h]
  simp only
  by_cases hfallback : rsdtAddr m rsdp ≠ 0 ∧ lastWith m madtSignature tables = none
  · have hrsdt := h.rsdt.resolve_left hfallback.1
    have hentries : rsdtEntries m (rsdtAddr m rsdp) = tables := hrsdt.entries (by decide)
    rw [if_pos ⟨hfallback.2, hfallback.1, hrsdt.signature_eq⟩, if_pos hfallback, hentries, rsdtPass,
      foldl_pick (by decide), hfallback.2]
    rfl
  · rw [if_neg hfallback, if_neg fun hgo => hfallback ⟨hgo.2.1, hgo.1⟩]

/-- Both ways find the same tables exactly if none of the list has the signature of the FADT in
either loop; where the RSDT is read after an XSDT without a MADT, one that has the signature
in its loop is enough, and none with the other does as well. -/
theorem discovery_agrees_iff (hx : ByXsdt m rsdp tables) (hr : ByRsdt m' rsdp' tables)
    (hsame : ∀ t ∈ tables, signature m t = signature m' t) :
    acpiInit m rsdp = acpiInit m' rsdp' ↔
      if rsdtAddr m rsdp ≠ 0 ∧ ∀ t ∈ tables, signature m t ≠ madtSignature then
        (∃ t ∈ tables, signature m t = rsdtFadtCase) ∨ ∀ t ∈ tables, signature m t ≠ xsdtFadtCase
      else ∀ t ∈ tables, signature m t ≠ rsdtFadtCase ∧ signature m t ≠ xsdtFadtCase := by
  have hlast : ∀ sig, lastWith m' sig tables = lastWith m sig tables := fun sig =>
    findLast_congr fun t ht => by rw [hsame t ht]
  rw [acpiInit_xsdt hx, acpiInit_rsdt hr, hlast, hlast, Tables.mk.injEq]
  simp only [true_and]
  have hmadt : lastWith m madtSignature tables = none ↔ _ := findLast_eq_none_iff
  have hfacp : lastWith m rsdtFadtCase tables = none ↔ _ := findLast_eq_none_iff
  have haacp : lastWith m xsdtFadtCase tables = none ↔ _ := findLast_eq_none_iff
  by_cases hfallback : rsdtAddr m rsdp ≠ 0 ∧ ∀ t ∈ tables, signature m t ≠ madtSignature
  · rw [if_pos hfallback, if_pos ⟨hfallback.1, hmadt.mpr hfallback.2⟩]
    cases hfound : lastWith m rsdtFadtCase tables with
    | none =>
      have hno : ¬ ∃ t ∈ tables, signature m t = rsdtFadtCase := fun ⟨t, ht, hsig⟩ => hfacp.mp hfound t ht hsig
      rw [Option.none_or, haacp]
      exact ⟨Or.inr, fun h => h.resolve_left hno⟩
    | some t => exact ⟨fun _ => .inl ⟨t, findLast_some hfound⟩, fun _ => rfl⟩
  · rw [if_neg hfallback, if_neg fun h => hfallback ⟨h.1, hmadt.mp h.2⟩]
    constructor
    · intro heq
      -- no table has both signatures
      have hnone : lastWith m rsdtFadtCase tables = none := by
        rw [Option.eq_none_iff_forall_ne_some]
        intro t ht
        have hboth := (findLast_some ht).2.symm.trans (findLast_some (heq.trans ht)).2
        exact absurd hboth (by decide)
      exact fun t ht => ⟨hfacp.mp hnone t ht, haacp.mp (heq.trans hnone) t ht⟩
    · intro hall
      rw [hfacp.mpr fun t ht => (hall t ht).1, haacp.mpr fun t ht => (hall t ht).2]

/-! Two root pointers of a firmware, the first with an XSDT and the second with an RSDT. -/

/-- The words of a memory that publishes a list of tables in both ways. -/
def publishedWords (tables : List Nat) : List (Nat × Nat) :=
  [(0x10C, 0x02000000), (0x118, 0x200), (0x190, 0x300), (0x200, xsdtSignature),
    (0x204, headerSize + 8 * tables.length), (0x300, rsdtSignature),
    (0x304, headerSize + 4 * tables.length), (0x400, rsdtFadtCase), (0x500, madtSignature)] ++
  tables.mapIdx (fun i t => (0x224 + 8 * i, t)) ++ tables.mapIdx fun i t => (0x324 + 4 * i, t)

def published (tables : List Nat) : View :=
  (publishedWords tables).foldl (fun mem w => mem.store32 w.1 w.2) fun _ => 0

/-- A list with a HPET and two MADTs. -/
def twoMadts : View := ((published [0x600, 0x500, 0x700]).store32 0x600 0x54455048).store32 0x700 madtSignature

theorem byXsdt_twoMadts : ByXsdt twoMadts 0x100 [0x600, 0x500, 0x700] where
  le_revision := by decide
  xsdt := ⟨by decide, by decide, by decide, by decide⟩
  rsdt := .inl (by decide)

theorem byRsdt_twoMadts : ByRsdt twoMadts 0x180 [0x600, 0x500, 0x700] where
  revision_lt := by decide
  rsdt := ⟨by decide, by decide, by decide, by decide⟩

/-- The last MADT is found in both ways. -/
theorem discovery_agrees_twoMadts : acpiInit twoMadts 0x100 = ⟨some 0x700, none⟩ ∧
    acpiInit twoMadts 0x100 = acpiInit twoMadts 0x180 := by
  refine ⟨?_, (discovery_agrees_iff byXsdt_twoMadts byRsdt_twoMadts fun _ _ => rfl).mpr (by decide)⟩
  rw [acpiInit_xsdt byXsdt_twoMadts]
  decide

/-- A FADT in front of a MADT is found through the RSDT only. -/
theorem fadt_missed : ByXsdt (published [0x400, 0x500]) 0x100 [0x400, 0x500] ∧
    ByRsdt (published [0x400, 0x500]) 0x180 [0x400, 0x500] ∧
    acpiInit (published [0x400, 0x500]) 0x100 = ⟨some 0x500, none⟩ ∧
    acpiInit (published [0x400, 0x500]) 0x180 = ⟨some 0x500, some 0x400⟩ := by
  have hx : ByXsdt (published [0x400, 0x500]) 0x100 [0x400, 0x500] :=
    ⟨by decide, ⟨by decide, by decide, by decide, by decide⟩, .inl (by decide)⟩
  have hr : ByRsdt (published [0x400, 0x500]) 0x180 [0x400, 0x500] :=
    ⟨by decide, by decide, by decide, by decide, by decide⟩
  refine ⟨hx, hr, ?_, ?_⟩
  · rw [acpiInit_xsdt hx]
    decide
  · rw [acpiInit_rsdt hr]
    decide

end GeckoOS.Drivers.Acpi
