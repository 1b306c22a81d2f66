import GeckoOS.Fs.Malformed

/-! `fat32_drive_open`, and where the clusters lie that are given out on a volume
it accepts. -/
namespace GeckoOS.Fs.Fat32
open Lib

/-- Why a volume is not opened. -/
inductive OpenError where
  | unreadable
  | zeroSizes
  | fat16
  deriving DecidableEq

/-- The volume with the place and the size that its boot sector gives. -/
structure Mounted extends Volume where
  partitionLba : Nat
  totalSectors : Nat

/-- `fat32_drive_open`; both allocations are taken to succeed. The address of the
partition has 64 bits, all others have 32. -/
def driveOpen (d : Drive) (lba : Nat) : Except OpenError Mounted :=
  match d.read lba with
  | none => .error .unreadable
  | some bpb =>
    if bpb.load16 11 = 0 ∨ (bpb 13).toNat = 0 then .error .zeroSizes
    else if bpb.load16 22 ≠ 0 then .error .fat16
    else
      let sectorsPerFat := bpb.load32 36
      let fatLba := add32 lba (bpb.load16 14)
      .ok {
        bytesPerSector := bpb.load16 11
        sectorsPerCluster := (bpb 13).toNat
        numFats := (bpb 16).toNat
        fatLba
        dataLba := add32 fatLba (mul32 (bpb 16).toNat sectorsPerFat)
        rootCluster := bpb.load32 44
        sectorsPerFat
        sectorsPerCluster_lt := (bpb 13).toNat_lt
        partitionLba := lba % 2^32
        totalSectors := bpb.load32 32 }

/-- The sectors of the cluster lie in the volume. -/
def Mounted.Inside (m : Mounted) (c : Nat) : Prop :=
  m.clusterToLba c + m.sectorsPerCluster ≤ m.partitionLba + m.totalSectors

instance (m : Mounted) (c : Nat) : Decidable (m.Inside c) := inferInstanceAs (Decidable (_ ≤ _))

/-- The FAT and the copy that is kept of it have addresses of 32 bits. -/
def Volume.FatOnDrive (vol : Volume) : Prop :=
  vol.fatLba + (if 1 < vol.numFats then 2 else 1) * vol.sectorsPerFat ≤ 2^32

/-- The FAT and the copy that is kept of it lie in the volume. -/
def Mounted.FatsInside (m : Mounted) : Prop :=
  m.FatOnDrive ∧ m.fatLba + (if 1 < m.numFats then 2 else 1) * m.sectorsPerFat ≤ m.partitionLba + m.totalSectors

variable {vol : Volume} {d d' : Drive} {m : Mounted} {lba c : Nat}

/-- What the checks leave of the values in the boot sector. -/
theorem driveOpen_ok (h : driveOpen d lba = .ok m) :
    0 < m.bytesPerSector ∧ 0 < m.sectorsPerCluster ∧ m.sectorsPerFat < 2^32 := by
  unfold driveOpen at h
  split at h
  · cases h
  · next bpb _ =>
    split at h
    · cases h
    · next hsizes =>
      split at h
      · cases h
      · cases h
        dsimp only
        exact ⟨by omega, by omega, bpb.load32_lt 36⟩

/-! Which clusters are given out. -/

/-- A cluster that is given out has an entry in the FAT. -/
private theorem allocFrom_entry (d : Drive) (s n : Nat) (h : (vol.allocFrom d s n).1 ≠ 0) :
    2 ≤ (vol.allocFrom d s n).1 ∧ ∃ j e, j < s + n ∧ e < entriesPerSector ∧
      (vol.allocFrom d s n).1 = add32 (mul32 j entriesPerSector) e := by
  induction n generalizing s with
  | zero => exact absurd rfl h
  | succ n ih =>
    rw [Volume.allocFrom] at h ⊢
    cases hread : d.read (add32 vol.fatLba s) with
    | none =>
      rw [hread] at h
      exact absurd rfl h
    | some tmp =>
      rw [hread] at h
      dsimp only at h ⊢
      cases hf : (List.range entriesPerSector).find? fun e =>
          2 ≤ add32 (mul32 s entriesPerSector) e && tmp.load32 (4 * e) % 2^28 == 0 with
      | none =>
        rw [hf] at h
        obtain ⟨h2, j, e, hj, he⟩ := ih (s + 1) h
        exact ⟨h2, j, e, by omega, he⟩
      | some e =>
        rw [hf] at h
        have hp := List.find?_some hf
        rw [Bool.and_eq_true, decide_eq_true_eq] at hp
        have he : e < entriesPerSector := List.mem_range.mp (List.mem_of_find?_eq_some hf)
        dsimp only at h ⊢
        cases hwrite : d.write (add32 vol.fatLba s) (Volume.setFatEntry tmp (4 * e) clusterEoc) with
        | none =>
          rw [hwrite] at h
          exact absurd rfl h
        | some d₁ => exact ⟨hp.1, s, e, by omega, he, rfl⟩

theorem allocCluster_entry (d : Drive) (h : (vol.allocCluster d).1 ≠ 0) :
    2 ≤ (vol.allocCluster d).1 ∧ (vol.allocCluster d).1 < vol.fatEntries ∧ (vol.allocCluster d).1 < 2^32 := by
  obtain ⟨h2, j, e, hj, he, heq⟩ := allocFrom_entry d 0 vol.sectorsPerFat h
  have hlt : j * entriesPerSector + e < vol.fatEntries := by
    have : (j + 1) * entriesPerSector ≤ vol.fatEntries := Nat.mul_le_mul_right _ (by omega)
    rw [Nat.add_mul] at this
    omega
  have hmod : (vol.allocCluster d).1 = (j * entriesPerSector + e) % 2^32 := by
    change (vol.allocFrom d 0 vol.sectorsPerFat).1 = _
    rw [heq]
    unfold add32 mul32
    omega
  refine ⟨h2, ?_, ?_⟩ <;> rw [hmod]
  · exact lt_of_le_of_lt (Nat.mod_le _ _) hlt
  · exact Nat.mod_lt _ (by decide)

/-- A drive with a FAT in which only the entry of `c` is free. -/
def onlyFree (vol : Volume) (c : Nat) : Drive where
  sectors lba i := if add32 (mul32 (sub32 lba vol.fatLba) entriesPerSector) (i / 4) = c then 0 else 1
  readFails _ := false
  writeFails _ := false

private theorem onlyFree_entry {j e : Nat} (hj : j < 2^32) :
    ((onlyFree vol c).sectors (add32 vol.fatLba j)).load32 (4 * e) % 2^28 = 0 ↔
      add32 (mul32 j entriesPerSector) e = c := by
  have hsub : sub32 (add32 vol.fatLba j) vol.fatLba = j := by
    unfold sub32 add32
    omega
  have hdiv : ∀ i < 4, (4 * e + i) / 4 = e := fun i hi => by omega
  have hbyte : ∀ i < 4, (onlyFree vol c).sectors (add32 vol.fatLba j) (4 * e + i) =
      if add32 (mul32 j entriesPerSector) e = c then 0 else 1 := by
    intro i hi
    simp only [onlyFree, hsub, hdiv i hi]
  have h0 := hbyte 0 (by decide)
  have h1 := hbyte 1 (by decide)
  have h2 := hbyte 2 (by decide)
  have h3 := hbyte 3 (by decide)
  unfold View.load32 View.load16
  rw [Nat.add_zero] at h0
  rw [show 4 * e + 2 + 1 = 4 * e + 3 from rfl, h0, h1, h2, h3]
  by_cases h : add32 (mul32 j entriesPerSector) e = c
  · simp [h]
  · simp [h]

private theorem allocFrom_onlyFree (hspf : vol.sectorsPerFat < 2^32) (h2 : 2 ≤ c) (s n : Nat)
    (hn : s + n = vol.sectorsPerFat)
    (hc : ∃ j e, s ≤ j ∧ j < s + n ∧ e < entriesPerSector ∧ add32 (mul32 j entriesPerSector) e = c) :
    (vol.allocFrom (onlyFree vol c) s n).1 = c := by
  induction n generalizing s with
  | zero =>
    obtain ⟨j, e, h1, h2, -⟩ := hc
    omega
  | succ n ih =>
    have hread : (onlyFree vol c).read (add32 vol.fatLba s) =
      some ((onlyFree vol c).sectors (add32 vol.fatLba s)) := rfl
    rw [Volume.allocFrom, hread]
    dsimp only
    cases hf : (List.range entriesPerSector).find? fun e => 2 ≤ add32 (mul32 s entriesPerSector) e &&
        ((onlyFree vol c).sectors (add32 vol.fatLba s)).load32 (4 * e) % 2^28 == 0 with
    | none =>
      refine ih (s + 1) (by omega) ?_
      obtain ⟨j, e, hsj, hj, he, heq⟩ := hc
      refine ⟨j, e, ?_, by omega, he, heq⟩
      by_contra hlt
      obtain rfl : j = s := by omega
      have hnone := List.find?_eq_none.mp hf e (List.mem_range.mpr he)
      rw [heq, (onlyFree_entry (by omega)).mpr heq] at hnone
      simp [h2] at hnone
    | some e =>
      have hp := List.find?_some hf
      rw [Bool.and_eq_true, beq_iff_eq] at hp
      exact (onlyFree_entry (by omega)).mp hp.2

/-- Every cluster with an entry in the FAT is given out when it is the only free one. -/
theorem allocCluster_onlyFree (hspf : vol.sectorsPerFat < 2^32) (h2 : 2 ≤ c) (hc : c < vol.fatEntries)
    (h32 : c < 2^32) :
    (vol.allocCluster (onlyFree vol c)).1 = c := by
  refine allocFrom_onlyFree hspf h2 0 _ (by omega)
    ⟨c / entriesPerSector, c % entriesPerSector, Nat.zero_le _, ?_, ?_, ?_⟩
  · rw [Nat.zero_add]
    exact Nat.div_lt_of_lt_mul (by rw [Nat.mul_comm]; exact hc)
  · exact Nat.mod_lt _ (by decide)
  · unfold add32 mul32 entriesPerSector sectorSize
    omega

/-! Which sectors are written. -/

/-- Nothing from the sector `n` on differs. -/
def Drive.SameFrom (n : Nat) (d d' : Drive) : Prop := ∀ lba, n ≤ lba → d'.sectors lba = d.sectors lba

namespace Drive.SameFrom
variable {n x : Nat} {buf : View}

theorem refl (n : Nat) (d : Drive) : SameFrom n d d := fun _ _ => rfl

theorem trans {d'' : Drive} (h : SameFrom n d d') (h' : SameFrom n d' d'') : SameFrom n d d'' :=
  fun lba hlba => (h' lba hlba).trans (h lba hlba)

theorem write (hx : x < n) (h : d.write x buf = some d') : SameFrom n d d' := by
  unfold Drive.write at h
  split at h
  · cases h
  · cases h
    exact fun lba hlba => Function.update_of_ne (by omega) _ _

theorem put (hx : x < n) (d : Drive) (buf : View) : SameFrom n d (d.put x buf) := by
  unfold Drive.put
  cases h : d.write x buf with
  | none => exact refl n d
  | some d' => exact write hx h

end Drive.SameFrom

section writes
variable {n : Nat} (hfat : vol.FatOnDrive)
  (hn : vol.fatLba + (if 1 < vol.numFats then 2 else 1) * vol.sectorsPerFat ≤ n)
include hfat hn

/-- The sectors of both FATs have addresses below the bound. -/
private theorem fat_sector_lt {j : Nat} (hj : j < vol.sectorsPerFat) :
    add32 vol.fatLba j < n ∧ (1 < vol.numFats → add32 (add32 vol.fatLba vol.sectorsPerFat) j < n ∧
      add32 (add32 vol.fatLba j) vol.sectorsPerFat < n) := by
  unfold Volume.FatOnDrive at hfat
  split at hfat
  · next hf =>
    rw [if_pos hf] at hn
    refine ⟨?_, fun _ => ?_⟩ <;> unfold add32 <;> omega
  · next hf =>
    rw [if_neg hf] at hn
    refine ⟨?_, fun h => absurd h hf⟩
    unfold add32
    omega

private theorem allocFrom_sameFrom (d : Drive) (s k : Nat) (hk : s + k = vol.sectorsPerFat) :
    d.SameFrom n (vol.allocFrom d s k).2 := by
  induction k generalizing s with
  | zero => exact .refl n d
  | succ k ih =>
    obtain ⟨hlba, hcopy⟩ := fat_sector_lt hfat hn (j := s) (by omega)
    rw [Volume.allocFrom]
    split
    · exact .refl n d
    · next tmp _ =>
      dsimp only
      split
      · exact ih (s + 1) (by omega)
      · next e _ =>
        split
        · exact .refl n d
        · next d₁ hwrite =>
          have hfirst : d.SameFrom n d₁ := .write hlba hwrite
          dsimp only
          split
          · next hf => exact hfirst.trans (.put (hcopy hf).1 d₁ _)
          · exact hfirst

private theorem writeFat_sameFrom (d : Drive) (hc : c < vol.fatEntries) (v : Nat) :
    d.SameFrom n (vol.writeFat d c v).2 := by
  have hj : mul32 c 4 / sectorSize < vol.sectorsPerFat := by
    unfold Volume.fatEntries entriesPerSector at hc
    unfold mul32 sectorSize at *
    omega
  obtain ⟨hlba, hcopy⟩ := fat_sector_lt hfat hn hj
  unfold Volume.writeFat Volume.fatSector
  split
  · exact .refl n d
  · dsimp only
    split
    · exact .refl n d
    · next d₁ hwrite =>
      have hfirst : d.SameFrom n d₁ := .write hlba hwrite
      split
      · next hf =>
        split
        · exact hfirst
        · next d₂ hwrite₂ => exact hfirst.trans (.write (hcopy hf).2 hwrite₂)
      · exact hfirst

omit hfat hn in
private theorem fillSectors_sameFrom (content : List UInt8) (s k remaining : Nat) (d : Drive)
    (hlt : lba + (s + k) ≤ n) (hlba : lba < 2^32) :
    d.SameFrom n (Volume.fillSectors content lba s k remaining d).2 := by
  induction k generalizing s remaining d with
  | zero => exact .refl n d
  | succ k ih =>
    have hx : add32 lba s < n := by
      unfold add32
      omega
    rw [Volume.fillSectors]
    exact (Drive.SameFrom.put hx d _).trans (ih (s + 1) _ _ (by omega))

private theorem chainLoop_sameFrom
    (hin : ∀ c, 2 ≤ c → c < vol.fatEntries → c < 2^32 → vol.clusterToLba c + vol.sectorsPerCluster ≤ n)
    (content : List UInt8) (k first prev remaining : Nat) (hprev : prev ≠ 0 → prev < vol.fatEntries)
    (d : Drive) :
    d.SameFrom n (vol.chainLoop content k first prev remaining d).2 := by
  induction k generalizing first prev remaining d with
  | zero => exact .refl n d
  | succ k ih =>
    have halloc : d.SameFrom n (vol.allocCluster d).2 := allocFrom_sameFrom hfat hn d 0 _ (by omega)
    rw [Volume.chainLoop]
    dsimp only
    split
    · exact halloc
    · next hne =>
      obtain ⟨h2, hc, h32⟩ := allocCluster_entry d hne
      have hlba : vol.clusterToLba (vol.allocCluster d).1 < 2^32 := by
        unfold Volume.clusterToLba add32
        exact Nat.mod_lt _ (by decide)
      have hlink : d.SameFrom n (if prev ≠ 0 then (vol.writeFat (vol.allocCluster d).2 prev
        (vol.allocCluster d).1).2
          else (vol.allocCluster d).2) := by
        split
        · next hp => exact halloc.trans (writeFat_sameFrom hfat hn _ (hprev hp) _)
        · exact halloc
      have hfill := hlink.trans (fillSectors_sameFrom content 0 vol.sectorsPerCluster remaining _
        (by rw [Nat.zero_add]; exact hin _ h2 hc h32) hlba)
      exact hfill.trans (ih _ _ _ (fun _ => hc) _)

end writes

/-- Without overflow the last cluster of the FAT ends last. -/
private theorem inside_iff_last (hspc : 0 < m.sectorsPerCluster) (hspf : 0 < m.sectorsPerFat)
    (hlt : m.dataLba + (m.fatEntries - 2) * m.sectorsPerCluster < 2^32) :
    (∀ c, 2 ≤ c → c < m.fatEntries → c < 2^32 → m.Inside c) ↔
      m.dataLba + (m.fatEntries - 2) * m.sectorsPerCluster ≤ m.partitionLba + m.totalSectors := by
  have hent : m.fatEntries = m.sectorsPerFat * 128 := rfl
  have hle : m.fatEntries - 2 ≤ (m.fatEntries - 2) * m.sectorsPerCluster := Nat.le_mul_of_pos_right _ hspc
  have hend : ∀ c, 2 ≤ c → c < m.fatEntries →
      m.clusterToLba c + m.sectorsPerCluster = m.dataLba + (c - 1) * m.sectorsPerCluster ∧
        (c - 1) * m.sectorsPerCluster ≤ (m.fatEntries - 2) * m.sectorsPerCluster := by
    intro c h2 hc
    have hmul : (c - 1) * m.sectorsPerCluster = (c - 2) * m.sectorsPerCluster + m.sectorsPerCluster := by
      rw [show c - 1 = c - 2 + 1 by omega, Nat.add_mul, Nat.one_mul]
    have hmono : (c - 1) * m.sectorsPerCluster ≤ (m.fatEntries - 2) * m.sectorsPerCluster :=
      Nat.mul_le_mul_right _ (by omega)
    have hoffset : mul32 (c - 2) m.sectorsPerCluster = (c - 2) * m.sectorsPerCluster := mul32_eq (by omega)
    refine ⟨?_, hmono⟩
    unfold Volume.clusterToLba
    rw [sub32_eq (by omega) h2, hoffset, add32_eq (by omega), hmul, Nat.add_assoc]
  constructor
  · intro hall
    have hlast := hall (m.fatEntries - 1) (by omega) (by omega) (by omega)
    unfold Mounted.Inside at hlast
    rw [(hend _ (by omega) (by omega)).1] at hlast
    exact hlast
  · intro hbound c h2 hc _
    obtain ⟨heq, hmono⟩ := hend c h2 hc
    unfold Mounted.Inside
    omega

/-- On a volume that was opened, no cluster outside it is ever given out exactly if
the FAT has no entry for such a cluster. Then no content is written past its end;
and if no address overflows, it is enough that the last cluster of the FAT is in it. -/
theorem allocated_clusters_inside_iff (hopen : driveOpen d lba = .ok m) :
    ((∀ d' : Drive, (m.allocCluster d').1 ≠ 0 → m.Inside (m.allocCluster d').1) ↔
      ∀ c, 2 ≤ c → c < m.fatEntries → c < 2^32 → m.Inside c) ∧
    ((∀ c, 2 ≤ c → c < m.fatEntries → c < 2^32 → m.Inside c) → m.FatsInside →
      ∀ (d' : Drive) (content : List UInt8),
        d'.SameFrom (m.partitionLba + m.totalSectors) (m.writeClusterChain d' content).2) ∧
    (0 < m.sectorsPerFat → m.dataLba + (m.fatEntries - 2) * m.sectorsPerCluster < 2^32 →
      ((∀ c, 2 ≤ c → c < m.fatEntries → c < 2^32 → m.Inside c) ↔
        m.dataLba + (m.fatEntries - 2) * m.sectorsPerCluster ≤ m.partitionLba + m.totalSectors)) := by
  refine ⟨⟨fun hall c h2 hc h32 => ?_, fun hall d' hne => ?_⟩, fun hall hfats d' content =>
    ?_, fun hspf hlt => ?_⟩
  · have hgiven := allocCluster_onlyFree (driveOpen_ok hopen).2.2 h2 hc h32
    have hin := hall (onlyFree m.toVolume c)
    rw [hgiven] at hin
    exact hin (by omega)
  · obtain ⟨h2, hc, h32⟩ := allocCluster_entry d' hne
    exact hall _ h2 hc h32
  · exact chainLoop_sameFrom hfats.1 hfats.2 hall content _ 0 0 _ (fun h => absurd rfl h) d'
  · exact inside_iff_last (driveOpen_ok hopen).2.1 hspf hlt

/-- A boot sector for eight clusters behind a FAT of one sector, and that FAT with
all of them in use. -/
def fullDrive : Drive where
  sectors lba i :=
    if lba = 0 then
      if i = 12 then 2 else if i ∈ [13, 14, 16, 36] then 1 else if i = 32 then 10 else if i = 44 then 2 else 0
    else if lba = 1 then (if i < 40 then 0xFF else 0)
    else 0
  readFails _ := false
  writeFails _ := false

private theorem fullDrive_opens :
    ∃ m, driveOpen fullDrive 0 = .ok m ∧ (m.allocCluster fullDrive).1 = 10 ∧ ¬ m.Inside 10 := by
  have hcheck : ((driveOpen fullDrive 0).toOption.any fun m =>
      (m.allocCluster fullDrive).1 = 10 ∧ ¬ m.Inside 10) = true := by decide +kernel
  cases h : driveOpen fullDrive 0 with
  | error e =>
    rw [h] at hcheck
    cases hcheck
  | ok m =>
    rw [h] at hcheck
    exact ⟨m, rfl, by simpa [Except.toOption] using hcheck⟩

/-- The FAT has entries for clusters behind the last sector, and the first of them is given out. -/
theorem full_volume_gives_out_cluster_outside :
    ¬ ∀ (d d' : Drive) (lba : Nat) (m : Mounted), driveOpen d lba = .ok m →
      (m.allocCluster d').1 ≠ 0 → m.Inside (m.allocCluster d').1 := by
  intro hall
  obtain ⟨m, hopen, halloc, hout⟩ := fullDrive_opens
  have hin := hall fullDrive fullDrive 0 m hopen
  rw [halloc] at hin
  exact hout (hin (by decide))

/-- On that volume not every cluster of the FAT lies inside. -/
theorem allocated_clusters_inside_iff_full :
    ∃ m, driveOpen fullDrive 0 = .ok m ∧ ¬ ∀ c, 2 ≤ c → c < m.fatEntries → c < 2^32 → m.Inside c := by
  obtain ⟨m, hopen, halloc, hout⟩ := fullDrive_opens
  refine ⟨m, hopen, fun hall => ?_⟩
  have hin := (allocated_clusters_inside_iff hopen).1.mpr hall fullDrive
  rw [halloc] at hin
  exact hout (hin (by decide))

end GeckoOS.Fs.Fat32
