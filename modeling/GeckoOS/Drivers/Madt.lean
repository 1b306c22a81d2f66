import GeckoOS.Lib.Bytes
import GeckoOS.Lib.Last

/-! `parse_madt_entries` of acpi.c: the records behind the header of the MADT. Offsets are
relative to the table. -/
namespace GeckoOS.Drivers.Madt
open Lib

def sizeofMadt : Nat := 44
def sizeofIoapic : Nat := 12
def ioapicType : UInt8 := 1

variable (m : View)

/-- `header.length`, which is also the size of the memory. -/
def length : Nat := m.load32 4

def entryType (p : Nat) : UInt8 := m p
def entryLength (p : Nat) : Nat := (m (p + 1)).toNat
def ioapicAddr (p : Nat) : Nat := m.load32 (p + 4)

/-- The check that ends the loop fails. -/
def Passes (p : Nat) : Prop := entryLength m p ≠ 0 ∧ p + entryLength m p ≤ length m

instance (p : Nat) : Decidable (Passes m p) := inferInstanceAs (Decidable (_ ∧ _))

/-- What the loop changes: whether there was an I/O APIC, and `acpi_ioapic_base`. -/
structure Found where
  ioapic : Bool
  base : Nat
  deriving DecidableEq

def entryPass (s : Found) (p : Nat) : Found := if entryType m p = ioapicType then ⟨true, ioapicAddr m p⟩ else s

def loop (p : Nat) (s : Found) : Found :=
  if p < length m ∧ Passes m p then loop (p + entryLength m p) (entryPass m s p) else s
termination_by length m - p
decreasing_by
  have := ‹p < length m ∧ Passes m p›.2.1
  omega

/-- The value for `acpi_lapic_base`, and what the loop finds. -/
def parseMadtEntries (base : Nat) : Nat × Found := (m.load32 36, loop m sizeofMadt ⟨false, base⟩)

/-! What the function reads. -/

/-- The bytes of one pass: the length, and behind the check the type and an address. -/
def passReads (p : Nat) : List Nat :=
  if Passes m p then [p + 1, p] ++
    if entryType m p = ioapicType then [p + 4, p + 5, p + 6, p + 7] else [] else [p + 1]

/-- The places to which the loop comes, the one where the check fails included. -/
def places (p : Nat) : List Nat :=
  if p < length m ∧ Passes m p then p :: places (p + entryLength m p) else if p < length m then [p] else []
termination_by length m - p
decreasing_by
  have := ‹p < length m ∧ Passes m p›.2.1
  omega

/-- The lapic address, the length of the table and the entries. -/
def reads : List Nat := [36, 37, 38, 39] ++ [4, 5, 6, 7] ++ (places m sizeofMadt).flatMap (passReads m)

/-! The entries as they should be. -/

/-- An entry holds its own two bytes and lies inside the table. -/
def EntryFits (p : Nat) : Prop := p + 2 ≤ length m ∧ 2 ≤ entryLength m p ∧ p + entryLength m p ≤ length m

instance (p : Nat) : Decidable (EntryFits m p) := inferInstanceAs (Decidable (_ ∧ _))

/-- The entries from a place on, up to the first that does not fit. -/
def wellFormed (p : Nat) : List Nat := if EntryFits m p then p :: wellFormed (p + entryLength m p) else []
termination_by length m - p
decreasing_by
  have hfits := ‹EntryFits m p›
  have := hfits.1
  have := hfits.2.1
  omega

/-- An entry of type 1 with all of its fields. -/
def IsIoapic (p : Nat) : Prop := entryType m p = ioapicType ∧ sizeofIoapic ≤ entryLength m p

instance (p : Nat) : Decidable (IsIoapic m p) := inferInstanceAs (Decidable (_ ∧ _))

/-- The result for the last complete entry of type 1. -/
def expected (base : Nat) : Found :=
  (findLast (IsIoapic m) (wellFormed m sizeofMadt)).elim ⟨false, base⟩ fun p => ⟨true, ioapicAddr m p⟩

/-- The entries that pass the check. -/
def passed (p : Nat) : List Nat := (places m p).filter fun p => Passes m p

variable {m} {p base : Nat} {s : Found}

theorem passed_eq (m : View) (p : Nat) : passed m p =
    if p < length m ∧ Passes m p then p :: passed m (p + entryLength m p) else [] := by
  rw [passed, places]
  by_cases hgo : p < length m ∧ Passes m p
  · rw [if_pos hgo, if_pos hgo, passed]
    simp [hgo.2]
  · rw [if_neg hgo, if_neg hgo]
    by_cases hlt : p < length m
    · have hfails : ¬ Passes m p := fun hpass => hgo ⟨hlt, hpass⟩
      simp [hlt, hfails]
    · simp [hlt]

theorem loop_eq (m : View) (p : Nat) (s : Found) :
    loop m p s = (findLast (fun q => entryType m q = ioapicType) (passed m p)).elim s fun q =>
      ⟨true, ioapicAddr m q⟩ := by
  rw [← foldl_findLast]
  fun_induction loop m p s with
  | case1 p s hgo ih =>
    rw [ih, passed_eq m p, if_pos hgo, List.foldl_cons]
    rfl
  | case2 p s hstop => rw [passed_eq, if_neg hstop, List.foldl_nil]

/-- The entries that fit pass the check. -/
theorem wellFormed_prefix_passed (m : View) (p : Nat) : wellFormed m p <+: passed m p := by
  fun_induction wellFormed m p with
  | case1 p hfits ih =>
    obtain ⟨hheader, hlength, hend⟩ := hfits
    have hpass : p < length m ∧ Passes m p := ⟨by omega, by omega, hend⟩
    rw [passed_eq, if_pos hpass]
    exact (List.prefix_cons_inj p).mpr ih
  | case2 p hstop => exact List.nil_prefix

/-- The function reads inside the table and returns what belongs to the entries. -/
def Correct (m : View) (base : Nat) : Prop :=
  (∀ o ∈ reads m, o < length m) ∧ (parseMadtEntries m base).2 = expected m base

/-- The bytes at the place are by chance those of the last complete entry of type 1. -/
def Coincides (m : View) (p : Nat) : Prop :=
  ∃ q, findLast (IsIoapic m) (wellFormed m sizeofMadt) = some q ∧ ioapicAddr m q = ioapicAddr m p

/-- The table has its fixed part, the loop finds a header at each of its places, the
entries that it takes for I/O APICs have an address, and the last of these is a complete
one of the entries that fit, or stands for it by chance. -/
structure Sane (m : View) : Prop where
  header : 40 ≤ length m
  places : ∀ p ∈ places m sizeofMadt, p + 2 ≤ length m
  addresses : ∀ p ∈ passed m sizeofMadt, entryType m p = ioapicType → p + 8 ≤ length m
  last : ∀ p, findLast (fun p => entryType m p = ioapicType) (passed m sizeofMadt) = some p →
    (p ∈ wellFormed m sizeofMadt ∧ sizeofIoapic ≤ entryLength m p) ∨ Coincides m p

/-- What is read lies inside the table. -/
theorem reads_inside_iff (m : View) : (∀ o ∈ reads m, o < length m) ↔
    40 ≤ length m ∧ (∀ p ∈ places m sizeofMadt, p + 2 ≤ length m) ∧
      ∀ p ∈ passed m sizeofMadt, entryType m p = ioapicType → p + 8 ≤ length m := by
  have hpass : ∀ p, (∀ o ∈ passReads m p, o < length m) ↔
      p + 2 ≤ length m ∧ (Passes m p → entryType m p = ioapicType → p + 8 ≤ length m) := by
    intro p
    rw [passReads]
    by_cases hgo : Passes m p
    · rw [if_pos hgo]
      by_cases htype : entryType m p = ioapicType
      · rw [if_pos htype]
        simp [hgo, htype]
        omega
      · rw [if_neg htype]
        simp [htype]
        omega
    · rw [if_neg hgo]
      simp [hgo]
      omega
  have hfixed : (∀ o ∈ [36, 37, 38, 39] ++ [4, 5, 6, 7], o < length m) ↔ 40 ≤ length m := by
    simp only [List.cons_append, List.nil_append, List.forall_mem_cons, List.not_mem_nil, false_implies,
      implies_true, and_true]
    omega
  rw [reads, List.forall_mem_append, hfixed, List.forall_mem_flatMap]
  simp only [hpass, passed, List.mem_filter, decide_eq_true_eq]
  constructor
  · exact fun ⟨hheader, hall⟩ => ⟨hheader, fun p hp => (hall p hp).1, fun p hp => (hall p hp.1).2 hp.2⟩
  · exact fun ⟨hheader, hplaces, haddr⟩ => ⟨hheader, fun p hp => ⟨hplaces p hp, fun hgo => haddr p ⟨hp, hgo⟩⟩⟩

/-- The loop goes forward. -/
theorem passed_pairwise (m : View) (p : Nat) : (∀ q ∈ passed m p, p ≤ q) ∧ (passed m p).Pairwise (· < ·) := by
  induction p using places.induct m with
  | case1 p hgo ih =>
    obtain ⟨hle, hpairs⟩ := ih
    have hpos : 0 < entryLength m p := Nat.pos_of_ne_zero hgo.2.1
    rw [passed_eq, if_pos hgo, List.forall_mem_cons, List.pairwise_cons]
    refine ⟨⟨Nat.le_refl p, fun q hq => ?_⟩, fun q hq => ?_, hpairs⟩
    · exact Nat.le_trans (Nat.le_add_right _ _) (hle q hq)
    · exact Nat.lt_of_lt_of_le (Nat.lt_add_of_pos_right hpos) (hle q hq)
  | case2 p hstop hlt =>
    rw [passed_eq, if_neg hstop]
    exact ⟨List.forall_mem_nil _, .nil⟩
  | case3 p hstop hend =>
    rw [passed_eq, if_neg hstop]
    exact ⟨List.forall_mem_nil _, .nil⟩

/-- The last entry that is taken for an I/O APIC, where it is complete. -/
theorem coincides_of_complete
    (hlast : findLast (fun p => entryType m p = ioapicType) (passed m sizeofMadt) = some p)
    (hfits : p ∈ wellFormed m sizeofMadt) (hcomplete : sizeofIoapic ≤ entryLength m p) : Coincides m p := by
  have hnodup : (passed m sizeofMadt).Nodup := (passed_pairwise m sizeofMadt).2.imp Nat.ne_of_lt
  have hfound := findLast_of_mem_prefix (wellFormed_prefix_passed m sizeofMadt) hnodup hlast hfits
  exact ⟨p, findLast_strengthen (fun _ h => h.1) hfound ⟨(findLast_some hlast).2, hcomplete⟩, rfl⟩

/-- The result is the expected one. -/
theorem parse_eq_expected_iff (m : View) (base : Nat) : (parseMadtEntries m base).2 = expected m base ↔
    ∀ p, findLast (fun p => entryType m p = ioapicType) (passed m sizeofMadt) = some p → Coincides m p := by
  unfold Coincides
  rw [parseMadtEntries, loop_eq, expected]
  cases hlast : findLast (fun p => entryType m p = ioapicType) (passed m sizeofMadt) with
  | none =>
    -- a complete entry would be one of those that pass
    have hnone : findLast (IsIoapic m) (wellFormed m sizeofMadt) = none :=
      findLast_eq_none_iff.mpr fun q hq hcomplete =>
      findLast_eq_none_iff.mp hlast q ((wellFormed_prefix_passed m sizeofMadt).subset hq) hcomplete.1
    rw [hnone]
    exact ⟨fun _ p hp => (Option.some_ne_none p hp.symm).elim, fun _ => rfl⟩
  | some p =>
    cases findLast (IsIoapic m) (wellFormed m sizeofMadt) with
    | none =>
      constructor
      · intro h
        cases h
      · intro h
        obtain ⟨q, hq, -⟩ := h p rfl
        cases hq
    | some q =>
      simp only [Option.elim_some, Found.mk.injEq, true_and, Option.some.injEq, forall_eq', exists_eq_left']
      exact eq_comm

/-- `parse_madt_entries` keeps inside the table and finds the last I/O APIC if and only if
the table is sane in this sense. -/
theorem parse_correct_iff (m : View) (base : Nat) : Correct m base ↔ Sane m := by
  rw [Correct, reads_inside_iff, parse_eq_expected_iff]
  constructor
  · exact fun ⟨⟨hheader, hplaces, haddr⟩, hlast⟩ => ⟨hheader, hplaces, haddr, fun p hp => .inr (hlast p hp)⟩
  · refine fun h => ⟨⟨h.header, h.places, h.addresses⟩, fun p hp => ?_⟩
    obtain ⟨hfits, hcomplete⟩ | hchance := h.last p hp
    · exact coincides_of_complete hp hfits hcomplete
    · exact hchance

/-- Where every entry fits, the loop goes through the well-formed entries. -/
theorem passed_eq_wellFormed (h : ∀ q ∈ places m p, EntryFits m q) : passed m p = wellFormed m p := by
  fun_induction wellFormed m p with
  | case1 p hfits ih =>
    obtain ⟨hheader, hlength, hend⟩ := hfits
    have hgo : p < length m ∧ Passes m p := ⟨by omega, by omega, hend⟩
    rw [places, if_pos hgo, List.forall_mem_cons] at h
    rw [passed_eq, if_pos hgo, ih h.2]
  | case2 p hstop =>
    have hend : ¬ p < length m := by
      intro hlt
      rw [places] at h
      split at h
      · exact hstop (h p List.mem_cons_self)
      · exact hstop (h p List.mem_cons_self)
    rw [passed_eq, if_neg fun hgo => hend hgo.1]

/-- A table of entries that fit, with complete ones of type 1, is sane. -/
theorem sane_of_entriesFit (hheader : 40 ≤ length m) (hfits : ∀ p ∈ places m sizeofMadt, EntryFits m p)
    (hioapics : ∀ p ∈ places m sizeofMadt, entryType m p = ioapicType →
      sizeofIoapic ≤ entryLength m p) : Sane m := by
  have hplace : ∀ p ∈ passed m sizeofMadt, p ∈ places m sizeofMadt := fun p hp => (List.mem_filter.mp hp).1
  refine ⟨hheader, fun p hp => (hfits p hp).1, fun p hp htype => ?_, fun p hp => .inl ?_⟩
  · have hcomplete := hioapics p (hplace p hp) htype
    have hend := (hfits p (hplace p hp)).2.2
    rw [sizeofIoapic] at hcomplete
    omega
  · obtain ⟨hmem, htype⟩ := findLast_some hp
    rw [← passed_eq_wellFormed hfits]
    exact ⟨hmem, hioapics p (hplace p hmem) htype⟩

/-- A table with a single byte behind its fixed part. -/
def truncated : View := fun i => if i = 4 then 45 else 0

/-- The length of an entry is read behind the table. -/
theorem truncated_overread : 45 ∈ reads truncated ∧ length truncated = 45 ∧ ¬ Correct truncated 0 := by
  have hread : 45 ∈ reads truncated := by
    have hplace : 44 ∈ places truncated sizeofMadt := by
      rw [places, if_neg (by decide), if_pos (by decide)]
      exact List.mem_singleton_self _
    exact List.mem_append_right _ (List.mem_flatMap.mpr ⟨44, hplace, by decide⟩)
  refine ⟨hread, by decide, fun h => ?_⟩
  exact absurd (h.1 45 hread) (by decide)

end GeckoOS.Drivers.Madt
