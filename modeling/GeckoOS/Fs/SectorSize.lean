import GeckoOS.Fs.Mount
import GeckoOS.Fs.RoundTrip

/-! Boot sectors that give another sector size than the drive's: contents are
written by the sectors of the drive and read by those of the boot sector. -/
namespace GeckoOS.Fs.Fat32
open Lib

namespace Volume
variable (vol : Volume)

/-- No sector is read or written for clusters of two different files. -/
def FilesApart (img : Image) (root : List Nat) (own : Slot → List Nat) : Prop :=
  ∀ t ∈ vol.slots root, ∀ u ∈ vol.slots root, (img.entry t).isLive → (img.entry u).isLive → t ≠ u →
    ∀ c ∈ own t, ∀ c' ∈ own u, ∀ i j, sectorSize * i < vol.clusterSize → sectorSize * j < vol.clusterSize →
      add32 (vol.clusterToLba c) i ≠ add32 (vol.clusterToLba c') j

/-- The file is there with its content, and the clusters of all files are apart. -/
structure Stored (d : Drive) (root : List Nat) (raw : RawName) (content : List UInt8) : Prop where
  reads : vol.FileReads d root raw content
  apart : ∃ own, vol.Layout (vol.image d) root own ∧ vol.FilesApart (vol.image d) root own

/-- Every content for which there are clusters is stored under the name, contents apart
that are too long for the size field. -/
def StoresAll (d : Drive) (root : List Nat) (name : List UInt8) : Prop :=
  ∀ content, vol.Fits (vol.image d).fat content.length → content.length < 2^32 →
    ∃ d', vol.createFile d name content = some (0, d') ∧ vol.Stored d' root (encode83Name name) content

end Volume

variable {vol : Volume} {d : Drive} {m : Mounted} {lba : Nat} {root : List Nat}
  {own : Slot → List Nat} {t : Slot}
  {name base ext content content' : List UInt8}

theorem Volume.Consistent.opened (h : m.Consistent) (hopen : driveOpen d lba = .ok m) : m.Opened :=
  ⟨h, (driveOpen_ok hopen).1, (driveOpen_ok hopen).2.1⟩

/-! A sector size above the drive's: the end of a content is not written. -/

private theorem fillSectors_congr (hlen : content.length = content'.length) (s n remaining : Nat) (d : Drive)
    (h : ∀ i < content.length - remaining + sectorSize * n, content.getD i 0 = content'.getD i 0) :
    Volume.fillSectors content lba s n remaining d = Volume.fillSectors content' lba s n remaining d := by
  induction n generalizing s remaining d with
  | zero => rfl
  | succ n ih =>
    rw [Nat.mul_succ] at h
    rw [Volume.fillSectors, Volume.fillSectors, ← hlen]
    generalize hchunk : (if sectorSize < remaining then sectorSize else remaining) = chunk
    have hle : chunk ≤ sectorSize ∧ chunk ≤ remaining := by split at hchunk <;> omega
    have hbuf : Volume.fillBuf content (content.length - remaining) chunk =
        Volume.fillBuf content' (content.length - remaining) chunk := by
      funext i
      unfold Volume.fillBuf
      by_cases hi : i < chunk
      · rw [if_pos hi, if_pos hi, h _ (by omega)]
      · rw [if_neg hi, if_neg hi]
    rw [hbuf]
    exact ih (s + 1) (remaining - chunk) _ fun i hi => h i (by omega)

/-- Contents for one cluster that only differ behind its sectors are stored alike. -/
private theorem createFile_congr (d : Drive) (name : List UInt8) (hlen : content.length = content'.length)
    (hone : vol.clustersNeeded content.length = 1)
    (h : ∀ i < sectorSize * vol.sectorsPerCluster, content.getD i 0 = content'.getD i 0) :
    vol.createFile d name content = vol.createFile d name content' := by
  have hchain : vol.writeClusterChain d content = vol.writeClusterChain d content' := by
    have hfill : ∀ lba d, Volume.fillSectors content lba 0 vol.sectorsPerCluster content'.length d =
        Volume.fillSectors content' lba 0 vol.sectorsPerCluster content'.length d :=
      fun lba d => fillSectors_congr hlen 0 _ _ d fun i hi => h i (by omega)
    unfold Volume.writeClusterChain
    rw [← hlen, hone, hlen]
    simp only [Volume.chainLoop, hfill]
  unfold Volume.createFile
  rw [hchain, hlen]

private theorem not_stored_above (hspc : 0 < vol.sectorsPerCluster) (hbps : sectorSize < vol.bytesPerSector)
    {fat : Nat → Nat} (hroom : 1 ≤ (vol.freeClusters fat).length) :
    ¬ ∀ content, vol.Fits fat content.length → content.length < 2^32 →
      ∃ d', vol.createFile d name content = some (0, d') ∧
      vol.FileReads d' root (encode83Name name) content := by
  intro hall
  let L := sectorSize * vol.sectorsPerCluster
  have hcs : L + 1 ≤ vol.clusterSize := by
    have := Nat.mul_le_mul_right vol.sectorsPerCluster (Nat.succ_le_of_lt hbps)
    rw [Nat.succ_mul] at this
    unfold Volume.clusterSize
    omega
  have hone : vol.clustersNeeded (L + 1) = 1 := by
    rw [Volume.clustersNeeded, if_neg (by omega), show L + 1 + vol.clusterSize - 1 =
      L + vol.clusterSize by omega, Nat.add_div_right _ (by omega), Nat.div_eq_of_lt (by omega)]
  let text (b : UInt8) : List UInt8 := List.replicate L 0 ++ [b]
  have hlen : ∀ b, (text b).length = L + 1 := by simp [text]
  have hbound := vol.sectorsPerCluster_lt
  have hstored : ∀ b, ∃ d', vol.createFile d name (text b) = some (0, d') ∧
      vol.FileReads d' root (encode83Name name) (text b) := by
    intro b
    apply hall
    · rw [Volume.Fits, hlen, hone]
      exact hroom
    · rw [hlen]
      simp only [L, sectorSize]
      omega
  obtain ⟨d₀, he₀, hr₀⟩ := hstored 0
  obtain ⟨d₁, he₁, hr₁⟩ := hstored 1
  have hsame : vol.createFile d name (text 0) = vol.createFile d name (text 1) := by
    refine createFile_congr d name (by rw [hlen, hlen]) (by rw [hlen, hone]) fun i hi => ?_
    rw [List.getD_append _ _ _ _ (by simpa using hi), List.getD_append _ _ _ _ (by simpa using hi)]
  obtain rfl : d₀ = d₁ := by
    rw [hsame, he₁] at he₀
    exact (Prod.mk.inj (Option.some.inj he₀)).2.symm
  have heq := congrArg (·[L]?) (hr₀.unique hr₁)
  simp [text] at heq

/-! A sector size below the drive's: the rest of a content is looked for in a cluster of zeros. -/

section created
variable (hv : vol.Opened) (hw : d.Works) (hl : vol.Layout (vol.image d) root own)
  (ht : vol.freeSlot (vol.image d) root = some t) (hfit : vol.Fits (vol.image d).fat content.length)
include hv hw hl ht hfit

/-- Whatever the sector size, a file is put on free clusters and into the free slot. -/
private theorem createFile_image (name : List UInt8) :
    ∃ d', vol.createFile d name content = some (0, d') ∧ d'.Works ∧ vol.image d' =
      (vol.place (vol.image d) (vol.newChain (vol.image d).fat content.length) content).setEntry t
        (newEntry (encode83Name name) attrArchive today (vol.newFirst (vol.image d).fat content.length)
          (content.length % 2^32)) := by
  obtain ⟨d₁, he₁, hl₁⟩ := Volume.leads_writeClusterChain hv hw content
  obtain ⟨d₂, he₂, hl₂⟩ := Volume.leads_writeDirEntry hv hl₁.works (hl.inData (freeSlot_spec ht).1)
    (newEntry (encode83Name name) attrArchive today (vol.newFirst (vol.image d).fat content.length)
      (content.length % 2^32))
  have hnew : ¬ (vol.newFirst (vol.image d).fat content.length = 0 ∧ 0 < content.length) := by
    rw [newFirst_eq_zero_of_pos (hv.clustersNeeded_pos _)]
    exact fun h => h.1 hfit
  refine ⟨d₂, ?_, hl₂.works, by rw [hl₂.image, hl₁.image]⟩
  unfold Volume.createFile
  rw [hv.search_free hw hl.rootChain, ht]
  dsimp only [Option.map_some]
  rw [he₁]
  dsimp only
  rw [if_neg hnew, he₂]

/-- The name leads to the new entry. -/
private theorem created_lookup {name : List UInt8} (hname : Is83 name base ext)
    (hfresh : vol.lookup (vol.image d) root (encode83Name name) = none) {d' : Drive}
    (he : vol.createFile d name content = some (0, d')) :
    vol.lookup (vol.image d') root (encode83Name name) = some t ∧ (vol.image d').entry t =
      newEntry (encode83Name name) attrArchive today (vol.newFirst (vol.image d).fat content.length)
        (content.length % 2^32) := by
  obtain ⟨d₁, he₁, -, himg⟩ := createFile_image hv hw hl ht hfit name
  obtain rfl : d' = d₁ := by
    rw [he] at he₁
    exact (Prod.mk.inj (Option.some.inj he₁)).2
  have hmem := (freeSlot_spec ht).1
  have hentry : (vol.image d').entry t = newEntry (encode83Name name) attrArchive today
      (vol.newFirst (vol.image d).fat content.length) (content.length % 2^32) := by rw [himg, entry_setEntry]
  obtain ⟨hend, hfree⟩ := encode83Name_first hname.ascii
  have hlive : ((vol.image d').entry t).isLive := by
    rw [hentry]
    exact newEntry_isLive hend hfree (.inl rfl)
  have hraw : ((vol.image d').entry t).rawName = encode83Name name := by rw [hentry, newEntry_rawName]
  have hframe := Volume.Frame.setEntry hl (.place hl (.refl (vol.image d) root own t) content) hmem
    (newEntry (encode83Name name) attrArchive today (vol.newFirst (vol.image d).fat content.length)
      (content.length % 2^32))
  rw [← himg] at hframe
  have honly : ∀ u ∈ vol.slots root, ((vol.image d').entry u).isLive →
      ((vol.image d').entry u).rawName = encode83Name name → u = t := by
    intro u hu hlu hru
    by_contra hut
    rw [hframe.entry u hu hut] at hlu hru
    exact lookup_none hfresh hu hlu hru
  exact ⟨lookup_eq_some hmem hlive hraw fun a ha b hb hla hlb hra hrb =>
    (honly a ha hla hra).trans (honly b hb hlb hrb).symm, hentry⟩

end created

/-- The first byte of the second cluster, as reads find it. -/
private theorem fileRead_second (hv : vol.Opened) (hw : d.Works) (hsmall : vol.clusterSize < 2^31) {c₁ c₂ : Nat}
    (h₁ : 2 ≤ c₁ ∧ c₁ < vol.fatEntries) (h₂ : 2 ≤ c₂ ∧ c₂ < vol.fatEntries) (hfat : (vol.image d).fat c₁ = c₂)
    {f : File} (hcluster : f.cluster = c₁) (hsize : f.fileSize = vol.clusterSize + 1) :
    vol.fileRead d f vol.clusterSize 1 = some [(vol.image d).data c₂ 0 0] := by
  have hent := hv.entries
  have hpos : 0 < vol.clusterSize := Nat.mul_pos hv.bytes hv.cluster
  have hsh := Volume.shows_sized vol hw
  have hnext : vol.nextCluster d c₁ = c₂ := (hsh.nextCluster_eq hv.geometry h₁.2).trans hfat
  have hpath : Path (vol.nextCluster d) f.cluster [c₁, c₂] (vol.nextCluster d c₂) := ⟨hcluster, hnext, rfl⟩
  have hin : ∀ c ∈ [c₁, c₂], 2 ≤ c ∧ c < clusterBad := by
    intro c hc
    rcases List.mem_pair.mp hc with rfl | rfl <;> omega
  have hdata : d.sectors (add32 (vol.clusterToLba c₂) 0) = (vol.image d).data c₂ 0 := by
    have hread := hsh.read_data hv.geometry (c := c₂) (s := 0) ⟨h₂.1, h₂.2, hv.cluster⟩
    rw [hsh.read_eq] at hread
    exact Option.some.inj hread
  have hbyte : vol.pathView d [c₁, c₂] vol.clusterSize = (vol.image d).data c₂ 0 0 := by
    rw [Volume.pathView, Nat.div_self hpos, Nat.mod_self]
    exact congrFun hdata 0
  have htwo : [c₁, c₂].length * vol.clusterSize = vol.clusterSize + vol.clusterSize := Nat.two_mul _
  rw [fileRead_path hw.1 hpos hsmall hpath hin (.inl (by omega)) (by omega) (by omega),
    View.bytes_drop_take, htwo, hsize, Nat.zero_add,
    show min 1 (min (vol.clusterSize + 1) (vol.clusterSize + vol.clusterSize) - vol.clusterSize) = 1 by omega]
  exact congrArg (fun b => some [b]) hbyte

/-- The first two free clusters are different. -/
private theorem two_free {fat : Nat → Nat} (hroom : 2 ≤ (vol.freeClusters fat).length) :
    ∃ c₁ c₂ rest, vol.freeClusters fat = c₁ :: c₂ :: rest ∧ c₁ ≠ c₂ := by
  cases h : vol.freeClusters fat with
  | nil =>
    rw [h, List.length_nil] at hroom
    omega
  | cons c₁ rest =>
    cases rest with
    | nil =>
      rw [h, List.length_singleton] at hroom
      omega
    | cons c₂ rest =>
      have hnd : (c₁ :: c₂ :: rest).Nodup := h ▸ freeClusters_nodup fat
      exact ⟨c₁, c₂, rest, rfl, fun heq => (List.nodup_cons.mp hnd).1 (heq ▸ List.mem_cons_self)⟩

/-- One byte more than a cluster takes two. -/
private theorem clustersNeeded_succ (hpos : 0 < vol.clusterSize) :
    vol.clustersNeeded (vol.clusterSize + 1) = 2 := by
  have hsum : vol.clusterSize + 1 + vol.clusterSize - 1 = 2 * vol.clusterSize := by omega
  rw [Volume.clustersNeeded, if_neg (by omega), hsum, Nat.mul_div_cancel _ hpos]

private theorem not_stored_below (hv : vol.Opened) (hw : d.Works) (hl : vol.Layout (vol.image d) root own)
    (ht : vol.freeSlot (vol.image d) root = some t) (hname : Is83 name base ext)
    (hfresh : vol.lookup (vol.image d) root (encode83Name name) = none)
    (hroom : 2 ≤ (vol.freeClusters (vol.image d).fat).length) (hbps : vol.bytesPerSector < sectorSize) :
    ¬ ∀ content, vol.Fits (vol.image d).fat content.length → content.length < 2^32 →
      ∃ d', vol.createFile d name content = some (0, d') ∧
      vol.FileReads d' root (encode83Name name) content := by
  intro hall
  have hbound := vol.sectorsPerCluster_lt
  have hent := hv.entries
  have hpos : 0 < vol.clusterSize := Nat.mul_pos hv.bytes hv.cluster
  have hcs : vol.clusterSize + 1 ≤ sectorSize * vol.sectorsPerCluster := by
    have := Nat.mul_le_mul_right vol.sectorsPerCluster (Nat.succ_le_of_lt hbps)
    have hspc := hv.cluster
    rw [Nat.succ_mul] at this
    unfold Volume.clusterSize
    omega
  have hsmall : vol.clusterSize < 2^31 := by
    unfold sectorSize at hcs
    omega
  obtain ⟨c₁, c₂, rest, hfree, hne⟩ := two_free hroom
  have h₁ := mem_freeClusters.mp (hfree ▸ List.mem_cons_self : c₁ ∈ vol.freeClusters (vol.image d).fat)
  have h₂ := mem_freeClusters.mp (hfree ▸ (by simp) : c₂ ∈ vol.freeClusters (vol.image d).fat)
  -- one byte more than a cluster of the boot sector's size
  let text : List UInt8 := List.replicate vol.clusterSize 0 ++ [1]
  have hlen : text.length = vol.clusterSize + 1 := by simp [text]
  have htwo : vol.clustersNeeded text.length = 2 := by rw [hlen, clustersNeeded_succ hpos]
  have hfit : vol.Fits (vol.image d).fat text.length := by
    rw [Volume.Fits, htwo]
    exact hroom
  have hchain : vol.newChain (vol.image d).fat text.length = [c₁, c₂] := by
    rw [Volume.newChain, htwo, hfree]
    rfl
  have hfirst : vol.newFirst (vol.image d).fat text.length = c₁ := by
    rw [Volume.newFirst, if_pos hfit, hfree]
    rfl
  obtain ⟨d', he, hreads⟩ := hall text hfit (by omega)
  obtain ⟨d₁, he₁, hw', himg⟩ := createFile_image hv hw hl ht hfit name
  obtain rfl : d' = d₁ := by
    rw [he] at he₁
    exact (Prod.mk.inj (Option.some.inj he₁)).2
  obtain ⟨hlookup, hentry⟩ := created_lookup hv hw hl ht hfit hname hfresh he
  obtain ⟨u, hu, -, hread⟩ := hreads
  obtain rfl : t = u := Option.some.inj (hlookup.symm.trans hu)
  rw [hchain] at himg
  have hfat : (vol.image d').fat c₁ = c₂ := by
    rw [himg]
    show relink _ _ [c₁, c₂] c₁ = c₂
    simp [relink]
  have hcluster : ((vol.image d').entry t).cluster = c₁ := by
    rw [hentry, hfirst, newEntry_cluster _ _ _ (by unfold clusterBad at hent; omega)]
  have hsize : ((vol.image d').entry t).fileSize = vol.clusterSize + 1 := by
    rw [hentry, newEntry_fileSize _ _ _ (Nat.mod_lt _ (by decide)), hlen, Nat.mod_eq_of_lt (by omega)]
  have hzero : (vol.image d').data c₂ 0 0 = 0 := by
    have hroot : c₂ ≠ t.cluster := by
      intro h
      exact (hl.free_notMem h₂.2.2).1 (h ▸ (mem_slots.mp (freeSlot_spec ht).1).1)
    have hidx : [c₁, c₂].idxOf c₂ = 1 := by simp [hne]
    rw [himg, setEntry_data_of_ne hroot]
    dsimp only [Volume.place]
    rw [if_pos ⟨by simp, hv.cluster⟩, hidx, Nat.one_mul, Nat.add_zero, pad, if_pos (by decide), Nat.add_zero,
      List.getD_eq_default _ _ (by rw [hlen]; exact hcs)]
  have hgot := fileRead_second hv hw' hsmall ⟨h₁.1, h₁.2.1⟩ ⟨h₂.1, h₂.2.1⟩ hfat
    (f := ((vol.image d').entry t).toFile) hcluster hsize
  rw [hread _ 1 (by decide), hzero] at hgot
  simp [text] at hgot

/-- Where the sector sizes agree, files are stored as they should. -/
private theorem stored_of_geometry (hg : vol.Geometry) (hw : d.Works) (hl : vol.Layout (vol.image d) root own)
    (hslot : (vol.freeSlot (vol.image d) root).isSome) (hname : Is83 name base ext)
    (hfresh : vol.lookup (vol.image d) root (encode83Name name) = none)
    (hfit : vol.Fits (vol.image d).fat content.length) (hlen : content.length < 2^32) :
    ∃ d', vol.createFile d name content = some (0, d') ∧ vol.Stored d' root (encode83Name name) content := by
  have hsh : vol.Shows d (vol.image d) := ⟨hw.1, hw.2, rfl⟩
  obtain ⟨t, ht⟩ := Option.isSome_iff_exists.mp hslot
  obtain ⟨d', he, h'⟩ := hsh.createFile hg hl name content
  have hs : (vol.createImage (vol.image d) root (encode83Name name) content).1 = 0 := by
    unfold Volume.createImage
    rw [ht]
    rcases storeAt_result hg (vol.image d) t content fun first =>
        newEntry (encode83Name name) attrArchive today first (content.length % 2^32) with ⟨-, hst⟩ | ⟨-, hno, -⟩
    · exact congrArg Prod.fst hst
    · exact absurd hfit hno
  obtain ⟨hend, hfree⟩ := encode83Name_first hname.ascii
  obtain ⟨u, own', hl', hh, hother⟩ := create_holds hg hl hend hfree hlen hfresh hs
  have honly : ∀ a ∈ vol.slots root,
    ((vol.createImage (vol.image d) root (encode83Name name) content).2.entry a).isLive →
      ((vol.createImage (vol.image d) root (encode83Name name) content).2.entry a).rawName =
        encode83Name name → a = u := by
    intro a ha hla hra
    by_contra hne
    exact hother a ha hne hla hra
  rw [hs] at he
  refine ⟨d', he, hh.fileReads hg h' hl' fun a ha b hb hla hlb hra hrb =>
    (honly a ha hla hra).trans (honly b hb hlb hrb).symm, own', ?_⟩
  rw [h'.image]
  refine ⟨hl', fun a ha b hb hla hlb hab c hc c' hc' i j hi hj heq => ?_⟩
  have hin := (hl'.owned a ha hla).inside hc
  have hin' := (hl'.owned b hb hlb).inside hc'
  have hcs := (clusterSize_eq hg).1
  have hdata : vol.InData c i :=
    ⟨hin.1, hin.2, by rw [hcs] at hi; exact lt_of_mul_lt_mul_left hi (Nat.zero_le _)⟩
  have hdata' : vol.InData c' j :=
    ⟨hin'.1, hin'.2, by rw [hcs] at hj; exact lt_of_mul_lt_mul_left hj (Nat.zero_le _)⟩
  rw [hg.clusterToLba_eq hdata, hg.clusterToLba_eq hdata'] at heq
  obtain ⟨rfl, -⟩ := hg.dataSector_inj hdata hdata' heq
  exact hl'.apart a ha b hb hla hlb hab hc hc'

private theorem bytes_of_stored (hv : vol.Opened) (hw : d.Works) (hl : vol.Layout (vol.image d) root own)
    (hslot : (vol.freeSlot (vol.image d) root).isSome) (hname : Is83 name base ext)
    (hfresh : vol.lookup (vol.image d) root (encode83Name name) = none)
    (hroom : 2 ≤ (vol.freeClusters (vol.image d).fat).length) (hall : vol.StoresAll d root name) :
    vol.bytesPerSector = sectorSize := by
  obtain ⟨t, ht⟩ := Option.isSome_iff_exists.mp hslot
  have hreads : ∀ content, vol.Fits (vol.image d).fat content.length → content.length < 2^32 →
      ∃ d', vol.createFile d name content = some (0, d') ∧ vol.FileReads d' root (encode83Name name) content :=
    fun content hfit hlen => (hall content hfit hlen).imp fun d' h => ⟨h.1, h.2.reads⟩
  rcases Nat.lt_trichotomy vol.bytesPerSector sectorSize with hlt | heq | hgt
  · exact absurd hreads (not_stored_below hv hw hl ht hname hfresh hroom hlt)
  · exact heq
  · exact absurd hreads (not_stored_above hv.cluster hgt (by omega))

/-- On a volume that was opened, with a free slot, all contents are stored if the boot
sector gives the sector size of the drive, and only then if two clusters are free. -/
theorem stored_iff_sector_size (hopen : driveOpen d lba = .ok m) (hrest : m.Consistent) (hw : d.Works)
    (hl : m.Layout (m.image d) root own) (hslot : (m.freeSlot (m.image d) root).isSome)
    (hname : Is83 name base ext)
    (hfresh : m.lookup (m.image d) root (encode83Name name) = none) :
    (m.bytesPerSector = sectorSize → m.StoresAll d root name) ∧
    (2 ≤ (m.freeClusters (m.image d).fat).length → (m.StoresAll d root name ↔ m.bytesPerSector = sectorSize)) ∧
    ∀ (d' : Drive) (content : List UInt8), 2^32 ≤ content.length →
    ¬ m.Stored d' root (encode83Name name) content := by
  have hv := hrest.opened hopen
  have hstored : m.bytesPerSector = sectorSize → m.StoresAll d root name := fun hbps content hfit hlen =>
    stored_of_geometry ⟨hrest, hbps, hv.cluster⟩ hw hl hslot hname hfresh hfit hlen
  refine ⟨hstored, fun hroom => ⟨bytes_of_stored hv hw hl hslot hname hfresh hroom, hstored⟩,
    fun d' content hlong hs => ?_⟩
  exact absurd hs.reads.length_lt (by omega)

/-- An empty volume of 126 clusters whose boot sector gives sectors of 256 * `b` bytes. -/
def blankDrive (b : UInt8) : Drive where
  sectors lba i :=
    if lba = 0 then
      if i = 12 then b else if i ∈ [13, 14, 16, 36] then 1 else if i = 32 then 128 else if i = 44 then 2 else 0
    else if lba = 1 ∧ i < 12 then [0xF8, 0xFF, 0xFF, 0x0F].getD (i % 4) 0
    else 0
  readFails _ := false
  writeFails _ := false

private theorem blank_sectors : 1 < 2^8 := by decide

def blankVolume (b : UInt8) : Mounted := ⟨⟨256 * b.toNat, 1, 1, 1, 2, 2, 1, blank_sectors⟩, 0, 128⟩

private theorem blank_opens : driveOpen (blankDrive 2) 0 = .ok (blankVolume 2) ∧
    driveOpen (blankDrive 4) 0 = .ok (blankVolume 4) := by
  constructor <;> with_unfolding_all rfl

private theorem blank_consistent (b : UInt8) : (blankVolume b).Consistent where
  fats := .inl rfl
  entries := show 128 ≤ clusterBad by decide
  apart := show 1 + 1 * 1 ≤ 2 by decide
  lba c s hd := by
    obtain ⟨-, hc, hs⟩ := hd
    have hc' : c < 128 := hc
    have hs' : s < 1 := hs
    show 2 + (c - 2) * 1 + s < 2^32
    omega

section blank
variable {b : UInt8} (hb : b = 2 ∨ b = 4)
include hb

private theorem blank_dead : ∀ t ∈ (blankVolume b).slots [2],
    (((blankVolume b).image (blankDrive b)).entry t).isLive = false := by
  rcases hb with rfl | rfl <;> decide +kernel

private theorem blank_layout :
    (blankVolume b).Layout ((blankVolume b).image (blankDrive b)) [2] fun _ => [] where
  rootChain := by
    refine ⟨⟨rfl, by decide, ?_⟩, by rcases hb with rfl | rfl <;> decide⟩
    change clusterEoc ≤ _
    rcases hb with rfl | rfl <;> decide +kernel
  ends := by
    unfold Volume.EndsOnce
    rcases hb with rfl | rfl <;> decide +kernel
  owned t ht hlive := by
    rw [blank_dead hb t ht] at hlive
    cases hlive
  apartRoot _ _ _ := by simp
  apart _ _ _ _ _ _ _ := by simp

private theorem blank_room : ((blankVolume b).freeSlot ((blankVolume b).image (blankDrive b)) [2]).isSome ∧
    (blankVolume b).lookup ((blankVolume b).image (blankDrive b)) [2] (encode83Name [65]) = none ∧
    2 ≤ ((blankVolume b).freeClusters ((blankVolume b).image (blankDrive b)).fat).length := by
  rcases hb with rfl | rfl <;> decide +kernel

end blank

private theorem blank_name : Is83 [65] [65] [] :=
  ⟨by decide, by decide, by decide, by simp [NameChar], by simp, rfl⟩

/-- With sectors of 512 bytes three bytes are stored. -/
theorem stored_iff_sector_size_blank : ∃ d', (blankVolume 2).createFile (blankDrive 2) [65] [1, 2, 3] =
    some (0, d') ∧
    (blankVolume 2).Stored d' [2] (encode83Name [65]) [1, 2, 3] := by
  obtain ⟨hslot, hfresh, -⟩ := blank_room (.inl rfl)
  obtain ⟨hstored, -⟩ := stored_iff_sector_size blank_opens.1 (blank_consistent 2) ⟨fun _ => rfl, fun _ => rfl⟩
    (blank_layout (.inl rfl)) hslot blank_name hfresh
  exact hstored (by decide) [1, 2, 3] (by decide +kernel) (by decide)

/-- 513 bytes. -/
def overlong : List UInt8 := List.replicate 512 0 ++ [1]

/-- The last of them, as a read of the new file finds it. -/
private def lastByte (r : Int × Drive) : Option (List UInt8) :=
  (blankVolume 4).fileRead r.2 (((blankVolume 4).image r.2).entry ⟨2, 0, 0⟩).toFile 512 1

private theorem blank_last_byte :
    ((blankVolume 4).createFile (blankDrive 4) [65] overlong).map lastByte = some (some [0]) := by
  decide +kernel

/-- A boot sector that gives sectors of 1024 bytes is accepted, and not every content can be read back. -/
theorem large_sectors_not_stored :
    ¬ ∀ (d : Drive) (lba : Nat) (m : Mounted) (root : List Nat) (own : Slot → List Nat)
      (name base ext content : List UInt8),
      driveOpen d lba = .ok m → m.Consistent → d.Works → m.Layout (m.image d) root own →
      (m.freeSlot (m.image d) root).isSome → Is83 name base ext →
      m.lookup (m.image d) root (encode83Name name) = none → m.Fits (m.image d).fat content.length →
      ∃ d', m.createFile d name content = some (0, d') ∧ m.Stored d' root (encode83Name name) content := by
  intro hall
  obtain ⟨hslot, hfresh, -⟩ := blank_room (.inr rfl)
  have hv := (blank_consistent 4).opened blank_opens.2
  have hw : (blankDrive 4).Works := ⟨fun _ => rfl, fun _ => rfl⟩
  have hl := blank_layout (b := 4) (.inr rfl)
  have ht : (blankVolume 4).freeSlot ((blankVolume 4).image (blankDrive 4)) [2] = some ⟨2, 0, 0⟩ := by
    decide +kernel
  have hfit : (blankVolume 4).Fits ((blankVolume 4).image (blankDrive 4)).fat overlong.length := by
    decide +kernel
  obtain ⟨d', he, hs⟩ := hall _ _ _ _ _ _ _ _ overlong blank_opens.2 (blank_consistent 4) hw hl hslot
    blank_name hfresh hfit
  obtain ⟨t, ht', -, hread⟩ := hs.reads
  obtain rfl : ⟨2, 0, 0⟩ = t :=
    Option.some.inj ((created_lookup hv hw hl ht hfit blank_name hfresh he).1.symm.trans ht')
  have hgot := blank_last_byte
  rw [he, Option.map_some] at hgot
  have hbyte := Option.some.inj ((hread 512 1 (by decide)).symm.trans (Option.some.inj hgot))
  have hlast : (overlong.drop 512).take 1 = [1] := by decide +kernel
  rw [hlast] at hbyte
  cases hbyte

end GeckoOS.Fs.Fat32
