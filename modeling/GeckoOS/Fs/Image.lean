import GeckoOS.Fs.Fat32
import Mathlib.Data.List.Find

/-! A volume as a FAT and the sectors of its clusters, and what single reads and
writes of the driver do to it on a drive that works. -/
namespace GeckoOS.Fs.Fat32
open Lib

/-- The FAT as a map from clusters to 28-bit values, and the sectors of each cluster. -/
@[ext] structure Image where
  fat : Nat → Nat
  data : Nat → Nat → View

namespace Image

def setFat (img : Image) (c v : Nat) : Image := { img with fat := Function.update img.fat c v }

def setData (img : Image) (c s : Nat) (buf : View) : Image :=
  { img with data := fun c' s' => if c' = c ∧ s' = s then buf else img.data c' s' }

end Image

namespace Volume
variable (vol : Volume)

def fatEntries : Nat := vol.sectorsPerFat * entriesPerSector

/-- The sector of a cluster, computed without wrapping. -/
def dataSector (c s : Nat) : Nat := vol.dataLba + (c - 2) * vol.sectorsPerCluster + s

/-- Clusters and sectors that the FAT can name. -/
def InData (c s : Nat) : Prop := 2 ≤ c ∧ c < vol.fatEntries ∧ s < vol.sectorsPerCluster

instance (c s : Nat) : Decidable (vol.InData c s) := inferInstanceAs (Decidable (_ ∧ _ ∧ _))

/-- What a drive shows of the volume. -/
def image (d : Drive) : Image where
  fat c :=
    if c < vol.fatEntries then
      (d.sectors (vol.fatLba + c / entriesPerSector)).load32 (4 * (c % entriesPerSector)) % 2^28
    else 0
  data c s := if vol.InData c s then d.sectors (vol.dataSector c s) else fun _ => 0

/-- One or two FATs in front of the data, of at most 0x0FFFFFF7 entries, and no
cluster whose address overflows. -/
structure Consistent : Prop where
  fats : vol.numFats = 1 ∨ vol.numFats = 2
  entries : vol.fatEntries ≤ clusterBad
  apart : vol.fatLba + vol.numFats * vol.sectorsPerFat ≤ vol.dataLba
  lba : ∀ c s, vol.InData c s → vol.dataSector c s < 2^32

/-- And clusters of sectors of the drive. -/
structure Geometry : Prop extends Consistent vol where
  bytes : vol.bytesPerSector = sectorSize
  cluster : 0 < vol.sectorsPerCluster

/-- Every sector can be read and written, and the drive shows `img`. -/
structure Shows (d : Drive) (img : Image) : Prop where
  reads : ∀ lba, d.readFails lba = false
  writes : ∀ lba, d.writeFails lba = false
  image : vol.image d = img

end Volume

variable {vol : Volume} {d : Drive} {img : Image} {c s v : Nat}

namespace Volume.Geometry
variable (hg : vol.Geometry)
include hg

theorem dataSector_inj {c' s' : Nat} (h : vol.InData c s) (h' : vol.InData c' s')
    (he : vol.dataSector c s = vol.dataSector c' s') : c = c' ∧ s = s' := by
  obtain ⟨h2, -, hs⟩ := h
  obtain ⟨h2', -, hs'⟩ := h'
  unfold dataSector at he
  have hsum : s + vol.sectorsPerCluster * (c - 2) = s' + vol.sectorsPerCluster * (c' - 2) := by
    rw [Nat.mul_comm _ (c - 2), Nat.mul_comm _ (c' - 2)]
    omega
  have hmod := congrArg (· % vol.sectorsPerCluster) hsum
  have hdiv := congrArg (· / vol.sectorsPerCluster) hsum
  simp only [Nat.add_mul_mod_self_left, Nat.mod_eq_of_lt hs, Nat.mod_eq_of_lt hs'] at hmod
  simp only [Nat.add_mul_div_left _ _ hg.cluster, Nat.div_eq_of_lt hs, Nat.div_eq_of_lt hs'] at hdiv
  omega

theorem clusterToLba_eq (h : vol.InData c s) : add32 (vol.clusterToLba c) s = vol.dataSector c s := by
  have hlt := hg.lba c s h
  obtain ⟨h2, hn, hs⟩ := h
  have hc : c < 2^32 := by
    have := hg.entries
    unfold clusterBad at this
    omega
  unfold dataSector at hlt ⊢
  unfold clusterToLba
  rw [sub32_eq hc h2, mul32_eq (by omega)]
  have hbase : add32 vol.dataLba ((c - 2) * vol.sectorsPerCluster) =
      vol.dataLba + (c - 2) * vol.sectorsPerCluster := add32_eq (by omega)
  rw [hbase, add32_eq hlt]

/-- Where the FAT has more than one sector, it lies below 2^32. -/
theorem fat_lt {j : Nat} (hj : j < vol.sectorsPerFat) :
    vol.fatLba + j < vol.dataLba ∧ vol.fatLba + vol.numFats * vol.sectorsPerFat < 2^32 := by
  have hap := hg.apart
  have hlba := hg.lba 2 0 ⟨le_rfl, by unfold fatEntries entriesPerSector sectorSize; omega, hg.cluster⟩
  unfold dataSector at hlba
  rcases hg.fats with h | h <;> rw [h] at hap ⊢ <;> omega

theorem fatSector_eq (hc : c < vol.fatEntries) :
    vol.fatSector c = vol.fatLba + c / entriesPerSector ∧ fatOffset c = 4 * (c % entriesPerSector) ∧
      c / entriesPerSector < vol.sectorsPerFat := by
  have hlt := hg.entries
  unfold clusterBad at hlt
  have hj : c / entriesPerSector < vol.sectorsPerFat := Nat.div_lt_of_lt_mul (by rw [Nat.mul_comm]; exact hc)
  obtain ⟨h1, h2⟩ := hg.fat_lt hj
  have hap := hg.apart
  have hfat : vol.fatLba + c / entriesPerSector < 2^32 := by
    rcases hg.fats with h | h <;> rw [h] at h2 <;> omega
  unfold fatSector fatOffset
  rw [mul32_eq (by omega)]
  have hdiv : c * 4 / sectorSize = c / entriesPerSector := by
    unfold sectorSize entriesPerSector sectorSize; omega
  refine ⟨by rw [hdiv, add32_eq hfat], by unfold sectorSize entriesPerSector sectorSize; omega, hj⟩

/-- A sector of the first FAT replaced. -/
theorem image_fat {j : Nat} (hj : j < vol.sectorsPerFat) (buf : View) :
    vol.image { d with sectors := Function.update d.sectors (vol.fatLba + j) buf } =
      ⟨fun c => if c < vol.fatEntries ∧ c / entriesPerSector = j then
          buf.load32 (4 * (c % entriesPerSector)) % 2^28 else (vol.image d).fat c, (vol.image d).data⟩ := by
  obtain ⟨hlt, -⟩ := hg.fat_lt hj
  ext c
  · by_cases hc : c < vol.fatEntries
    · by_cases hcj : c / entriesPerSector = j
      · simp [image, hc, hcj]
      · have hne : vol.fatLba + c / entriesPerSector ≠ vol.fatLba + j := by omega
        simp [image, hc, hcj]
    · simp [image, hc]
  · rename_i s i
    have hne : vol.dataSector c s ≠ vol.fatLba + j := by unfold dataSector; omega
    simp [image, Function.update_of_ne hne]

/-- A sector of the second FAT shows nowhere. -/
theorem image_mirror {lba : Nat} (hlo : vol.fatLba + vol.sectorsPerFat ≤ lba) (hhi : lba < vol.dataLba)
    (buf : View) :
    vol.image { d with sectors := Function.update d.sectors lba buf } = vol.image d := by
  ext c
  · by_cases hc : c < vol.fatEntries
    · have hne : vol.fatLba + c / entriesPerSector ≠ lba := by
        have := (hg.fatSector_eq hc).2.2
        omega
      simp [image, hc, Function.update_of_ne hne]
    · simp [image, hc]
  · rename_i s i
    have hne : vol.dataSector c s ≠ lba := by unfold dataSector; omega
    simp [image, Function.update_of_ne hne]

theorem image_data (h : vol.InData c s) (buf : View) :
    vol.image { d with sectors := Function.update d.sectors (vol.dataSector c s) buf } =
      (vol.image d).setData c s buf := by
  have hap := hg.apart
  ext c'
  · by_cases hc : c' < vol.fatEntries
    · have hne : vol.fatLba + c' / entriesPerSector ≠ vol.dataSector c s := by
        have := (hg.fatSector_eq hc).2.2
        have := hg.fat_lt this
        unfold dataSector
        omega
      simp [image, Image.setData, hc, Function.update_of_ne hne]
    · simp [image, Image.setData, hc]
  · rename_i s' i
    by_cases h' : vol.InData c' s'
    · by_cases he : c' = c ∧ s' = s
      · obtain ⟨rfl, rfl⟩ := he
        simp [image, Image.setData, h']
      · have hne : vol.dataSector c' s' ≠ vol.dataSector c s := fun h'' => he (hg.dataSector_inj h' h h'')
        simp [image, Image.setData, he, Function.update_of_ne hne]
    · have he : ¬ (c' = c ∧ s' = s) := fun he => h' (he.1 ▸ he.2 ▸ h)
      simp [image, Image.setData, h', he]

end Volume.Geometry

namespace Volume.Shows
variable (hg : vol.Geometry) (h : vol.Shows d img)
include h

theorem read_eq (lba : Nat) : d.read lba = some (d.sectors lba) := by
  rw [Drive.read, h.reads]
  rfl

theorem write_eq (lba : Nat) (buf : View) :
    d.write lba buf = some { d with sectors := Function.update d.sectors lba buf } := by
  rw [Drive.write, h.writes]
  rfl

theorem put_eq (lba : Nat) (buf : View) :
    d.put lba buf = { d with sectors := Function.update d.sectors lba buf } := by
  rw [Drive.put, h.write_eq]
  rfl

/-- Replacing a sector keeps the drive working. -/
theorem update {lba : Nat} {buf : View} {img' : Image}
    (hi : vol.image { d with sectors := Function.update d.sectors lba buf } = img') :
    vol.Shows { d with sectors := Function.update d.sectors lba buf } img' := ⟨h.reads, h.writes, hi⟩

include hg

theorem nextCluster_eq (hc : c < vol.fatEntries) : vol.nextCluster d c = img.fat c := by
  obtain ⟨hsec, hoff, -⟩ := hg.fatSector_eq hc
  rw [nextCluster, h.read_eq, hsec, hoff, ← h.image]
  simp [Volume.image, hc]

theorem read_data (hd : vol.InData c s) : d.read (add32 (vol.clusterToLba c) s) = some (img.data c s) := by
  rw [h.read_eq, hg.clusterToLba_eq hd, ← h.image]
  simp [Volume.image, hd]

theorem put_data (hd : vol.InData c s) (buf : View) :
    vol.Shows (d.put (add32 (vol.clusterToLba c) s) buf) (img.setData c s buf) := by
  rw [h.put_eq, hg.clusterToLba_eq hd]
  exact h.update (by rw [hg.image_data hd, h.image])

end Volume.Shows

theorem setFatEntry_load (buf : View) (o v : Nat) :
    (Volume.setFatEntry buf o v).load32 o % 2^28 = v % 2^28 := by
  have := buf.load32_lt o
  rw [Volume.setFatEntry, View.load32_store32]
  omega

theorem setFatEntry_load_of_ne (buf : View) {e e' : Nat} (v : Nat) (h : e' ≠ e) :
    (Volume.setFatEntry buf (4 * e) v).load32 (4 * e') = buf.load32 (4 * e') :=
  View.load32_store32_of_ne _ _ (by omega)

namespace Volume.Shows
variable (hg : vol.Geometry) (h : vol.Shows d img)
include hg h

/-- One entry of the first FAT replaced. -/
private theorem set_entry (hc : c < vol.fatEntries) (v : Nat) :
    vol.Shows { d with
      sectors := Function.update d.sectors (vol.fatLba + c / entriesPerSector)
        (setFatEntry (d.sectors (vol.fatLba + c / entriesPerSector)) (4 * (c % entriesPerSector)) v) }
      (img.setFat c (v % 2^28)) := by
  refine h.update ?_
  rw [hg.image_fat (hg.fatSector_eq hc).2.2, h.image]
  ext x
  · dsimp only
    by_cases hx : x < vol.fatEntries ∧ x / entriesPerSector = c / entriesPerSector
    · rw [if_pos hx]
      by_cases hxc : x = c
      · subst hxc
        rw [setFatEntry_load]
        exact (Function.update_self x (v % 2^28) img.fat).symm
      · have hmod : x % entriesPerSector ≠ c % entriesPerSector := by
          intro hm
          apply hxc
          rw [← Nat.div_add_mod x entriesPerSector, ← Nat.div_add_mod c entriesPerSector, hx.2, hm]
        rw [setFatEntry_load_of_ne _ _ hmod, ← h.image]
        simp [Image.setFat, Volume.image, hxc, hx.1, hx.2]
    · have hxc : x ≠ c := fun he => hx ⟨he ▸ hc, by rw [he]⟩
      rw [if_neg hx]
      simp [Image.setFat, hxc]
  · rfl

theorem writeFat (hc : c < vol.fatEntries) (v : Nat) :
    vol.Shows (vol.writeFat d c v).2 (img.setFat c (v % 2^28)) := by
  obtain ⟨hsec, hoff, hj⟩ := hg.fatSector_eq hc
  obtain ⟨-, hend⟩ := hg.fat_lt hj
  have hap := hg.apart
  have hset := set_entry hg h hc v
  unfold Volume.writeFat
  rw [h.read_eq, hsec, hoff]
  generalize c / entriesPerSector = j at hj hset ⊢
  dsimp only
  rw [h.write_eq]
  dsimp only
  split
  · next hf =>
    have h2 : vol.numFats = 2 := by rcases hg.fats with h | h <;> omega
    rw [h2] at hap hend
    rw [hset.write_eq, add32_eq (by omega)]
    refine hset.update ?_
    rw [hg.image_mirror (by omega) (by omega), hset.image]
  · exact hset

end Volume.Shows

/-- The free clusters in the order in which they are given out. -/
def Volume.freeClusters (vol : Volume) (fat : Nat → Nat) : List Nat :=
  (List.range vol.fatEntries).filter fun c => 2 ≤ c && fat c == 0

theorem mem_freeClusters {fat : Nat → Nat} : c ∈ vol.freeClusters fat ↔ 2 ≤ c ∧ c < vol.fatEntries ∧
    fat c = 0 := by
  simp only [Volume.freeClusters, List.mem_filter, List.mem_range, Bool.and_eq_true,
    decide_eq_true_eq, beq_iff_eq]
  tauto

theorem freeClusters_nodup (fat : Nat → Nat) : (vol.freeClusters fat).Nodup :=
  List.nodup_range.filter _

namespace Volume.Shows
variable (hg : vol.Geometry) (h : vol.Shows d img)
include hg h

/-- The search through one sector is the search through its clusters. -/
private theorem find_sector {j : Nat} (hj : j < vol.sectorsPerFat) :
    ((List.range entriesPerSector).find? fun e =>
      2 ≤ add32 (mul32 j entriesPerSector) e &&
        (d.sectors (vol.fatLba + j)).load32 (4 * e) % 2^28 == 0).map (j * entriesPerSector + ·) =
      (List.range' (j * entriesPerSector) entriesPerSector).find? fun c => 2 ≤ c && img.fat c == 0 := by
  have hent := hg.entries
  have hjn : (j + 1) * entriesPerSector ≤ vol.fatEntries := Nat.mul_le_mul_right _ hj
  unfold clusterBad at hent
  rw [List.range'_eq_map_range, List.find?_map]
  congr 1
  apply List.find?_congr
  intro e he
  have he' : e < 128 := List.mem_range.mp he
  have hb : j * 128 + e < vol.fatEntries := by
    have : entriesPerSector = 128 := rfl
    rw [this] at hjn
    omega
  have hcl : add32 (mul32 j entriesPerSector) e = j * entriesPerSector + e := by
    change add32 (mul32 j 128) e = j * 128 + e
    rw [mul32_eq (by omega), add32_eq (by omega)]
  have hfat : img.fat (j * entriesPerSector + e) = (d.sectors (vol.fatLba + j)).load32 (4 * e) % 2^28 := by
    have hdiv : (j * entriesPerSector + e) / entriesPerSector = j := by
      change (j * 128 + e) / 128 = j
      omega
    have hmod : (j * entriesPerSector + e) % entriesPerSector = e := by
      change (j * 128 + e) % 128 = e
      omega
    rw [← h.image]
    simp only [Volume.image, hdiv, hmod]
    exact if_pos hb
  simp only [Function.comp, hcl, hfat]

/-- The cluster found by the search is marked in both FATs. -/
private theorem mark {j e : Nat} (hj : j < vol.sectorsPerFat) (he : e < entriesPerSector) :
    let d' : Drive := { d with
      sectors := Function.update d.sectors (vol.fatLba + j)
        (setFatEntry (d.sectors (vol.fatLba + j)) (4 * e) clusterEoc) }
    vol.Shows (if 1 < vol.numFats then
        d'.put (add32 (add32 vol.fatLba vol.sectorsPerFat) j)
          (setFatEntry (d.sectors (vol.fatLba + j)) (4 * e) clusterEoc)
      else d') (img.setFat (j * entriesPerSector + e) clusterEoc) := by
  intro d'
  have hdiv : (j * entriesPerSector + e) / entriesPerSector = j := by
    rw [Nat.mul_comm, Nat.mul_add_div (by decide), Nat.div_eq_of_lt he, Nat.add_zero]
  have hmod : (j * entriesPerSector + e) % entriesPerSector = e := by
    rw [Nat.mul_comm, Nat.mul_add_mod, Nat.mod_eq_of_lt he]
  have hc : j * entriesPerSector + e < vol.fatEntries := by
    have : (j + 1) * entriesPerSector ≤ vol.fatEntries := Nat.mul_le_mul_right _ hj
    rw [Nat.add_mul] at this
    omega
  have hset := set_entry hg h hc clusterEoc
  rw [hdiv, hmod] at hset
  obtain ⟨-, hend⟩ := hg.fat_lt hj
  have hap := hg.apart
  split
  · next hf =>
    have h2 : vol.numFats = 2 := by rcases hg.fats with h | h <;> omega
    rw [h2] at hap hend
    have hlba : add32 (add32 vol.fatLba vol.sectorsPerFat) j = vol.fatLba + vol.sectorsPerFat + j := by
      have hbase : add32 vol.fatLba vol.sectorsPerFat = vol.fatLba + vol.sectorsPerFat := add32_eq (by omega)
      rw [hbase, add32_eq (by omega)]
    rw [hset.put_eq, hlba]
    refine hset.update ?_
    rw [hg.image_mirror (by omega) (by omega), hset.image]
    rfl
  · exact hset

private theorem allocFrom_eq (n j : Nat) (hj : j + n = vol.sectorsPerFat) :
    match (List.range' (j * entriesPerSector) (n * entriesPerSector)).find? fun c =>
      2 ≤ c && img.fat c == 0 with
    | none => vol.allocFrom d j n = (0, d)
    | some c => ∃ d', vol.allocFrom d j n = (c, d') ∧ vol.Shows d' (img.setFat c clusterEoc) := by
  induction n generalizing j with
  | zero =>
    rw [Nat.zero_mul]
    rfl
  | succ n ih =>
    have hlt : j < vol.sectorsPerFat := by omega
    obtain ⟨-, hend⟩ := hg.fat_lt hlt
    have hlba : add32 vol.fatLba j = vol.fatLba + j := by
      apply add32_eq
      rcases hg.fats with h | h <;> rw [h] at hend <;> omega
    have hsplit : List.range' (j * entriesPerSector) ((n + 1) * entriesPerSector) =
        List.range' (j * entriesPerSector) entriesPerSector ++
          List.range' ((j + 1) * entriesPerSector) (n * entriesPerSector) := by
      rw [Nat.add_mul, Nat.add_mul, Nat.one_mul, Nat.add_comm (n * _), ← List.range'_append, Nat.one_mul]
    have hfind := find_sector hg h hlt
    rw [hsplit, List.find?_append, ← hfind]
    rw [allocFrom, h.read_eq, hlba]
    dsimp only
    cases hf : (List.range entriesPerSector).find? fun e =>
        2 ≤ add32 (mul32 j entriesPerSector) e &&
          (d.sectors (vol.fatLba + j)).load32 (4 * e) % 2^28 == 0 with
    | none => exact ih (j + 1) (by omega)
    | some e =>
      have he : e < entriesPerSector := List.mem_range.mp (List.mem_of_find?_eq_some hf)
      have hcl : add32 (mul32 j entriesPerSector) e = j * entriesPerSector + e := by
        have hent := hg.entries
        have hjn : (j + 1) * entriesPerSector ≤ vol.fatEntries := Nat.mul_le_mul_right _ hlt
        unfold clusterBad at hent
        rw [Nat.add_mul] at hjn
        have hbase : mul32 j entriesPerSector = j * entriesPerSector := mul32_eq (by omega)
        rw [hbase, add32_eq (by omega)]
      dsimp only [Option.map_some, Option.some_or]
      rw [h.write_eq]
      exact ⟨_, by rw [hcl], mark hg h hlt he⟩

/-- `fat32_alloc_cluster` gives the lowest free cluster and marks it as the end of a chain. -/
theorem allocCluster_cases :
    (vol.freeClusters img.fat = [] ∧ vol.allocCluster d = (0, d)) ∨
      ∃ c rest d', vol.freeClusters img.fat = c :: rest ∧ vol.allocCluster d = (c, d') ∧
        vol.Shows d' (img.setFat c clusterEoc) := by
  have hall := allocFrom_eq hg h vol.sectorsPerFat 0 (by omega)
  rw [Nat.zero_mul, ← List.range_eq_range', ← List.head?_filter] at hall
  change match (vol.freeClusters img.fat).head? with | none => _ | some c => _ at hall
  cases hf : vol.freeClusters img.fat with
  | nil =>
    rw [hf] at hall
    exact .inl ⟨rfl, hall⟩
  | cons c rest =>
    rw [hf] at hall
    obtain ⟨d', he, hs⟩ := hall
    exact .inr ⟨c, rest, d', rfl, he, hs⟩

end Volume.Shows

end GeckoOS.Fs.Fat32
