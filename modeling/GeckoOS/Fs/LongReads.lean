import GeckoOS.Fs.Isolation

/-! Reads of 2^31 bytes and more leave the clusters of their file. -/
namespace GeckoOS.Fs.Fat32
open Lib

/-- A volume for `n` clusters of one file, A; the root directory lies behind the first `k + 1` of them. -/
def longVolume (k : Nat) : Volume := ⟨512, 1, 1, 0, 65537, k + 3, 65537, one_sectorPerCluster_lt⟩

def longChain (k n : Nat) : List Nat := (List.range n).map fun j => if j ≤ k then j + 2 else j + 3
def longFat (k n : Nat) : Nat → Nat := relink (fun _ => clusterEoc) clusterEoc (longChain k n)
def longEntry (size : Nat) : DirEntry := newEntry (encode83Name [65]) attrArchive today 2 size

def longDrive (k n size : Nat) : Drive where
  sectors lba :=
    if lba < 65537 then fun i => .ofNat (longFat k n (lba * entriesPerSector + i / 4) / 2^(8 * (i % 4)))
    else if lba = 65538 + k then storeEntry (fun _ => 0) 0 (longEntry size)
    else fun _ => 0
  readFails _ := false
  writeFails _ := false

def longOwn (k n : Nat) : Slot → List Nat := Function.update (fun _ => []) ⟨k + 3, 0, 0⟩ (longChain k n)

variable {k n size offset len : Nat}

theorem mem_longChain {c : Nat} (hc : c ∈ longChain k n) : 2 ≤ c ∧ c < n + 3 ∧ c ≠ k + 3 := by
  obtain ⟨j, hj, rfl⟩ := List.mem_map.mp hc
  rw [List.mem_range] at hj
  split <;> omega

theorem longChain_nodup (k n : Nat) : (longChain k n).Nodup := by
  refine List.nodup_range.map fun i j h => ?_
  split at h <;> split at h <;> omega

theorem longChain_length (k n : Nat) : (longChain k n).length = n := by
  rw [longChain, List.length_map, List.length_range]

theorem longFat_lt (hn : n ≤ 2^23) (c : Nat) : longFat k n c < 2^28 := by
  by_cases hc : c ∈ longChain k n
  · rcases (relink_mem hc : longFat k n c ∈ _ ∨ longFat k n c = clusterEoc) with hmem | he
    · have := mem_longChain hmem
      unfold longFat
      omega
    · unfold longFat
      rw [he]
      decide
  · rw [longFat, relink_of_notMem hc]
    decide

theorem long_geometry (k : Nat) : (longVolume k).Geometry where
  bytes := rfl
  cluster := Nat.one_pos
  fats := .inl rfl
  entries := by
    change 65537 * 128 ≤ 0x0FFFFFF7
    decide
  apart := by
    change 0 + 1 * 65537 ≤ 65537
    decide
  lba := by
    rintro c s ⟨-, hc, hs⟩
    change c < 65537 * 128 at hc
    change s < 1 at hs
    change 65537 + (c - 2) * 1 + s < 2^32
    omega

/-- A word stored byte by byte. -/
private theorem load32_ofNat (f : Nat → Nat) (e : Nat) (h : f e < 2^32) :
    View.load32 (fun i => .ofNat (f (i / 4) / 2^(8 * (i % 4)))) (4 * e) = f e := by
  have hd : ∀ j < 4, (4 * e + j) / 4 = e ∧ (4 * e + j) % 4 = j := fun j hj => by omega
  unfold View.load32 View.load16
  rw [Nat.add_assoc (4 * e) 2 1]
  simp only [(hd 1 (by decide)).1, (hd 1 (by decide)).2, (hd 2 (by decide)).1, (hd 2 (by decide)).2,
    (hd 3 (by decide)).1, (hd 3 (by decide)).2, Nat.mul_div_cancel_left e
    (by decide : 0 < 4), Nat.mul_mod_right, UInt8.toNat_ofNat']
  omega

theorem long_fat (hn : n ≤ 2^23) {c : Nat} (hc : c < (longVolume k).fatEntries) :
    ((longVolume k).image (longDrive k n size)).fat c = longFat k n c := by
  have hsec : c / entriesPerSector < 65537 := Nat.div_lt_of_lt_mul (by rw [Nat.mul_comm]; exact hc)
  have hlt := longFat_lt (k := k) hn c
  have hmod : c / entriesPerSector * entriesPerSector + c % entriesPerSector = c := by
    rw [Nat.mul_comm]
    exact Nat.div_add_mod _ _
  have hload := load32_ofNat (fun e => longFat k n (c / entriesPerSector * entriesPerSector + e))
    (c % entriesPerSector) (by rw [hmod]; omega)
  simp only [Volume.image, hc, if_true]
  change View.load32 ((longDrive k n size).sectors (0 + c / entriesPerSector)) _ % _ = _
  rw [Nat.zero_add, longDrive]
  dsimp only
  rw [if_pos hsec, hload, hmod, Nat.mod_eq_of_lt hlt]

theorem long_slots (k : Nat) :
    (longVolume k).slots [k + 3] = (List.range slotsPerSector).map fun e => ⟨k + 3, 0, e⟩ := by
  simp [Volume.slots, longVolume, List.range_succ]

theorem mem_long_slots {t : Slot} : t ∈ (longVolume k).slots [k + 3] ↔
    ∃ e < slotsPerSector, t = ⟨k + 3, 0, e⟩ := by
  rw [long_slots, List.mem_map]
  constructor
  · rintro ⟨e, he, rfl⟩
    exact ⟨e, List.mem_range.mp he, rfl⟩
  · rintro ⟨e, he, rfl⟩
    exact ⟨e, List.mem_range.mpr he, rfl⟩

theorem long_entry (n size : Nat) (hk : k < 2^23) (e : Nat) :
    ((longVolume k).image (longDrive k n size)).entry ⟨k + 3, 0, e⟩ =
      if e = 0 then longEntry size else fun _ => 0 := by
  have hin : (longVolume k).InData (k + 3) 0 := ⟨by omega, by change k + 3 < 65537 * 128; omega, Nat.one_pos⟩
  have hsector : (longVolume k).dataSector (k + 3) 0 = 65538 + k := by
    change 65537 + (k + 3 - 2) * 1 + 0 = 65538 + k
    omega
  unfold Image.entry Volume.image
  dsimp only
  rw [if_pos hin, hsector, longDrive]
  dsimp only
  rw [if_neg (by omega), if_pos rfl]
  by_cases he : e = 0
  · rw [if_pos he, he, entryAt_storeEntry]
  · rw [if_neg he, entryAt_storeEntry_of_ne _ _ he]
    rfl

theorem longEntry_live (size : Nat) : (longEntry size).isLive :=
  newEntry_isLive (by decide) (by decide) (.inl rfl)

theorem long_live (hk : k < 2^23) {t : Slot} (ht : t ∈ (longVolume k).slots [k + 3])
    (hlive : (((longVolume k).image (longDrive k n size)).entry t).isLive) : t = ⟨k + 3, 0, 0⟩ := by
  obtain ⟨e, -, rfl⟩ := mem_long_slots.mp ht
  rw [long_entry n size hk] at hlive
  by_cases he : e = 0
  · rw [he]
  · rw [if_neg he] at hlive
    exact absurd hlive (by decide)

theorem long_chain (size : Nat) (hk : k < n) (hn : n ≤ 2^23) :
    (longVolume k).Chain ((longVolume k).image (longDrive k n size)).fat 2 (longChain k n) := by
  have hlen : 0 < (longChain k n).length := by
    rw [longChain_length]
    omega
  have hin : ∀ c ∈ longChain k n, 2 ≤ c ∧ c < (longVolume k).fatEntries := by
    intro c hc
    have := mem_longChain hc
    exact ⟨this.1, by change c < 65537 * 128; omega⟩
  have hchain : (longVolume k).Chain (longFat k n) (longChain k n)[0] ((longChain k n).drop 0) :=
    chain_relink (long_geometry k) (longChain_nodup k n) hin hlen
  have hhead : (longChain k n)[0] = 2 := by simp [longChain]
  rw [hhead, List.drop_zero] at hchain
  exact hchain.congr fun c hc => long_fat hn (hin c hc).2

theorem long_layout (size : Nat) (hk : k < n) (hn : n ≤ 2^23) :
    (longVolume k).Layout ((longVolume k).image (longDrive k n size)) [k + 3] (longOwn k n) where
  rootChain := by
    have hfat : ((longVolume k).image (longDrive k n size)).fat (k + 3) = clusterEoc := by
      rw [long_fat hn (by change k + 3 < 65537 * 128; omega), longFat,
        relink_of_notMem fun hmem => (mem_longChain hmem).2.2 rfl]
    refine ⟨⟨rfl, ?_, ?_⟩, ?_⟩
    · unfold clusterEoc
      omega
    · exact hfat ▸ le_refl clusterEoc
    · intro c hc
      rw [List.mem_singleton.mp hc]
      exact ⟨by omega, by change k + 3 < 65537 * 128; omega⟩
  ends := by
    unfold Volume.EndsOnce
    rw [long_slots, List.pairwise_map]
    refine List.pairwise_lt_range.imp fun {e e'} hlt hend => ?_
    rw [long_entry n size (by omega)] at hend ⊢
    rw [if_neg (by omega)]
    decide
  owned := by
    intro t ht hlive
    obtain rfl := long_live (by omega) ht hlive
    rw [longOwn, Function.update_self]
    have hfirst : (longEntry size).cluster = 2 := newEntry_cluster _ _ _ (by decide)
    have hchain := long_chain size hk hn
    rw [long_entry n size (by omega), if_pos rfl, Volume.Owns, hfirst]
    exact .inr ⟨List.ne_nil_of_length_pos (by rw [longChain_length]; omega), hchain⟩
  apartRoot := by
    intro t ht hlive
    obtain rfl := long_live (by omega) ht hlive
    rw [longOwn, Function.update_self]
    intro c hc hroot
    exact (mem_longChain hc).2.2 (List.mem_singleton.mp hroot)
  apart := by
    intro t ht u hu hlt hlu htu
    exact absurd ((long_live (by omega) ht hlt).trans (long_live (by omega) hu hlu).symm) htu

/-- The new directory goes behind the entry of the file. -/
theorem long_freeSlot (n size : Nat) (hk : k < 2^23) :
    ∃ e, 0 < e ∧ e < slotsPerSector ∧
      (longVolume k).freeSlot ((longVolume k).image (longDrive k n size)) [k + 3] = some ⟨k + 3, 0, e⟩ := by
  cases ht : (longVolume k).freeSlot ((longVolume k).image (longDrive k n size)) [k + 3] with
  | none =>
    have hfree := List.find?_eq_none.mp ht ⟨k + 3, 0, 1⟩ (mem_long_slots.mpr ⟨1, by decide, rfl⟩)
    rw [long_entry n size hk] at hfree
    exact absurd rfl hfree
  | some t =>
    obtain ⟨hmem, hfree⟩ := freeSlot_spec ht
    obtain ⟨e, he, rfl⟩ := mem_long_slots.mp hmem
    refine ⟨e, Nat.pos_of_ne_zero fun hz => ?_, he, rfl⟩
    subst hz
    have hnot := freeSlot_not_live ht
    rw [long_entry n size hk, if_pos rfl, longEntry_live] at hnot
    cases hnot

/-- The sector behind the first `k + 1` clusters is that of the root directory. -/
theorem long_clusterOn {d : Drive} (hk : k < 2^23) {i : Nat} (hlo : sectorSize ≤ i) (hhi : i < 2 * sectorSize) :
    (longVolume k).clusterOn d (k + 2) i = d.sectors ((longVolume k).dataSector (k + 3) 0)
      (i - sectorSize) := by
  have hdiv : i / sectorSize = 1 := by unfold sectorSize at *; omega
  have hmod : i % sectorSize = i - sectorSize := by unfold sectorSize at *; omega
  have hsector : add32 ((longVolume k).clusterToLba (k + 2)) 1 = (longVolume k).dataSector (k + 3) 0 := by
    change add32 (add32 65537 (mul32 (sub32 (k + 2) 2) 1)) 1 = 65537 + (k + 3 - 2) * 1 + 0
    unfold add32 mul32 sub32
    omega
  rw [Volume.clusterOn, hdiv, hmod, hsector]

/-- Making the directory B leaves the chain of A and changes the sector of the root directory. -/
private theorem long_mkdir (size : Nat) (hk : k < n) (hn : n ≤ 2^23) :
    ∃ r d' img' e, (longVolume k).exec (longDrive k n size) (.mkdir [66]) = some (r, d') ∧
      (longVolume k).Shows d' img' ∧ (longVolume k).Chain img'.fat 2 (longChain k n) ∧ e < slotsPerSector ∧
      d'.sectors ((longVolume k).dataSector (k + 3) 0) (32 * e) ≠
        (longDrive k n size).sectors ((longVolume k).dataSector (k + 3) 0) (32 * e) := by
  have hk' : k < 2^23 := by omega
  have hg := long_geometry k
  have hl := long_layout size hk hn
  have hentry := long_entry n size hk'
  have hmem : (⟨k + 3, 0, 0⟩ : Slot) ∈ (longVolume k).slots [k + 3] := mem_long_slots.mpr ⟨0, by decide, rfl⟩
  have hin : (longVolume k).InData (k + 3) 0 := ⟨by omega, by change k + 3 < 65537 * 128; omega, Nat.one_pos⟩
  obtain ⟨e, he, hlt, hfree⟩ := long_freeSlot n size hk'
  have hshows : (longVolume k).Shows (longDrive k n size) ((longVolume k).image (longDrive k n size)) :=
    ⟨fun _ => rfl, fun _ => rfl, rfl⟩
  obtain ⟨d', hexec, hshows'⟩ := hshows.exec hg hl (.mkdir [66])
  have hs := call_spares hg hl (.mkdir [66])
  refine ⟨_, d', _, e, hexec, hshows', ?_, hlt, ?_⟩
  · have hlive : (((longVolume k).image (longDrive k n size)).entry ⟨k + 3, 0, 0⟩).isLive := by
      rw [hentry, if_pos rfl]
      exact longEntry_live size
    have hraw : (((longVolume k).image (longDrive k n size)).entry ⟨k + 3, 0, 0⟩).rawName ≠
      encode83Name [66] := by
      rw [hentry, if_pos rfl, longEntry, newEntry_rawName]
      decide
    have howns := (hl.owned _ hmem hlive).congr (hs.fat _ hmem hlive hraw)
    rw [hentry, if_pos rfl, longOwn, Function.update_self] at howns
    have hcluster : (longEntry size).cluster = 2 := newEntry_cluster _ _ _ (by decide)
    rcases howns with ⟨hzero, -⟩ | ⟨-, hchain⟩
    · rw [hcluster] at hzero
      cases hzero
    · rwa [hcluster] at hchain
  · have hnew : ((longVolume k).image d').entry ⟨k + 3, 0, e⟩ =
      newEntry (encode83Name [66]) attrDirectory 0 0 0 := by
      rw [hshows'.image]
      change ((longVolume k).mkdirImage _ [k + 3] (encode83Name [66])).2.entry _ = _
      rw [Volume.mkdirImage, hfree]
      exact entry_setEntry ..
    have hold := hentry e
    rw [if_neg (by omega)] at hold
    unfold Image.entry Volume.image entryAt at hnew hold
    dsimp only at hnew hold
    rw [if_pos hin] at hnew hold
    have hnew0 := congrFun hnew 0
    have hold0 := congrFun hold 0
    simp only [Fin.val_zero, Nat.add_zero] at hnew0 hold0
    rw [hnew0, hold0]
    decide

/-- What a long read of A gives. -/
private theorem long_fileRead {d : Drive} {img : Image}
    (hshows : (longVolume (offset / sectorSize)).Shows d img)
    (hchain : (longVolume (offset / sectorSize)).Chain img.fat 2 (longChain (offset / sectorSize) n))
    (hk : offset / sectorSize < n) (hsize : size < 2^32) (hlen : 2^31 ≤ min len (size - offset)) :
    (longVolume (offset / sectorSize)).fileRead d (longEntry size).toFile offset len =
      some (((longVolume (offset / sectorSize)).clusterOn d (offset / sectorSize + 2)).bytes
        (offset % sectorSize)
        (min len (size - offset))) := by
  have hcluster : (longEntry size).toFile.cluster = 2 := newEntry_cluster _ _ _ (by decide)
  have hfileSize : (longEntry size).toFile.fileSize = size := newEntry_fileSize _ _ _ hsize
  have hlength := longChain_length (offset / sectorSize) n
  have hget : (longChain (offset / sectorSize) n).getD (offset / sectorSize) 0 = offset / sectorSize + 2 := by
    rw [List.getD_eq_getElem _ _ (by omega)]
    simp [longChain]
  have hat : offset / (longVolume (offset / sectorSize)).clusterSize <
    (longChain (offset / sectorSize) n).length :=
    hlength.symm ▸ hk
  have hlong : 2^31 ≤ min len ((longEntry size).toFile.fileSize - offset) := hfileSize.symm ▸ hlen
  have hread := hshows.fileRead_runs_on (long_geometry _) (f := (longEntry size).toFile)
    (hcluster.symm ▸ hchain)
    (hfileSize.symm ▸ hsize) hat hlong
  rw [hread, hfileSize]
  change some (((longVolume _).clusterOn d ((longChain _ n).getD (offset / sectorSize) 0)).bytes _ _) = _
  rw [hget]
  rfl

private theorem bytes_getD {m : View} {o i len : Nat} (h : i < len) : (m.bytes o len).getD i 0 = m (o + i) := by
  rw [List.getD_eq_getElem _ _ (by simpa using h)]
  simp [View.bytes]

/-- Whatever the size, the offset and the length of a long read of A: on some volume the
read changes when a directory is created next to A. -/
theorem long_read_differs (hsize : size < 2^32) (hlen : 2^31 ≤ min len (size - offset)) :
    let vol := longVolume (offset / sectorSize)
    let d := longDrive (offset / sectorSize) (size / sectorSize + 1) size
    ∃ r d', vol.exec d (.mkdir [66]) = some (r, d') ∧
      vol.fileRead d' (longEntry size).toFile offset len ≠
        vol.fileRead d (longEntry size).toFile offset len := by
  intro vol d
  have hk : offset / sectorSize < size / sectorSize + 1 :=
    Nat.lt_succ_of_le (Nat.div_le_div_right (by omega))
  have hn : size / sectorSize + 1 ≤ 2^23 := by
    change size / 512 + 1 ≤ 2^23
    omega
  have hshows : vol.Shows d (vol.image d) := ⟨fun _ => rfl, fun _ => rfl, rfl⟩
  obtain ⟨r, d', img', e, hexec, hshows', hchain', he, hne⟩ := long_mkdir size hk hn
  have hmod : offset % sectorSize < sectorSize := Nat.mod_lt _ (by decide)
  refine ⟨r, d', hexec, fun hsame => hne ?_⟩
  have hchain := long_chain size hk hn
  rw [long_fileRead hshows' hchain' hk hsize hlen, long_fileRead hshows hchain hk hsize hlen] at hsame
  have hlt : 32 * e + sectorSize - offset % sectorSize < min len (size - offset) := by
    unfold slotsPerSector sectorSize at *
    omega
  have hbyte := congrArg (fun l => l.getD (32 * e + sectorSize - offset % sectorSize) 0) (Option.some.inj hsame)
  have hplace : offset % sectorSize + (32 * e + sectorSize - offset % sectorSize) =
    32 * e + sectorSize := by omega
  have hend : 32 * e + sectorSize < 2 * sectorSize := by
    unfold slotsPerSector sectorSize at *
    omega
  rw [bytes_getD hlt, bytes_getD hlt, hplace, long_clusterOn (by omega) (by omega) hend,
    long_clusterOn (by omega) (by omega) hend, Nat.add_sub_cancel] at hbyte
  exact hbyte

/-- The read of `len` bytes from the offset on is the same after a call for every file of
the size and of another name. -/
def Volume.ReadsKept (vol : Volume) (d : Drive) (img : Image) (root : List Nat) (call : Call)
    (size offset len : Nat) : Prop :=
  ∃ r d', vol.exec d call = some (r, d') ∧
    ∀ u ∈ vol.slots root, (img.entry u).isLive → (img.entry u).rawName ≠ encode83Name call.name →
      (img.entry u).isDirectory = false → (img.entry u).fileSize = size →
      vol.fileRead d' (img.entry u).toFile offset len = vol.fileRead d (img.entry u).toFile offset len

private theorem long_reads_not_kept (hsize : size < 2^32) (hlen : 2^31 ≤ min len (size - offset)) :
    let vol := longVolume (offset / sectorSize)
    let d := longDrive (offset / sectorSize) (size / sectorSize + 1) size
    ¬ vol.ReadsKept d (vol.image d) [offset / sectorSize + 3] (.mkdir [66]) size offset len := by
  rintro vol d ⟨r, d', hexec, hkeep⟩
  have hk : offset / sectorSize < 2^23 := by
    have := Nat.div_le_div_right (c := sectorSize) (show offset ≤ size by omega)
    have : size / 512 < 2^23 := by omega
    exact lt_of_le_of_lt ‹_› this
  obtain ⟨r', d'', hexec', hne⟩ := long_read_differs hsize hlen
  obtain ⟨-, rfl⟩ : r = r' ∧ d' = d'' := by simpa using hexec.symm.trans hexec'
  have hentry : (vol.image d).entry ⟨offset / sectorSize + 3, 0, 0⟩ = longEntry size := by
    rw [long_entry _ _ hk, if_pos rfl]
  have hmem : (⟨offset / sectorSize + 3, 0, 0⟩ : Slot) ∈ vol.slots [offset / sectorSize + 3] :=
    mem_long_slots.mpr ⟨0, by decide, rfl⟩
  have hsame := hkeep _ hmem
  rw [hentry] at hsame
  refine hne (hsame (longEntry_live size) ?_ ?_ (newEntry_fileSize _ _ _ hsize))
  · rw [longEntry, newEntry_rawName]
    decide
  · rw [DirEntry.isDirectory, longEntry, newEntry_attributes]
    decide

/-- For a size, an offset and a length: a call leaves every live entry of another name in
its slot, with the same chain and the same data, on every volume; and exactly if fewer
than 2^31 bytes are read, such a read of such a file is on every volume the same afterwards. -/
theorem other_files_untouched_iff (hsize : size < 2^32) :
    (∀ (vol : Volume) (d : Drive) (img : Image) (root : List Nat) (own : Slot → List Nat) (call : Call),
      vol.Geometry → vol.Shows d img → vol.Layout img root own →
      (∃ r d' img', vol.exec d call = some (r, d') ∧ vol.Shows d' img' ∧
        vol.Chain img'.fat vol.rootCluster root ∧
        ∀ u ∈ vol.slots root, (img.entry u).isLive → (img.entry u).rawName ≠ encode83Name call.name →
          img'.entry u = img.entry u ∧ vol.Owns img'.fat (img'.entry u) (own u) ∧
          ∀ c ∈ own u, img'.data c = img.data c) ∧
      vol.ReadsKept d img root call size offset len) ↔ min len (size - offset) < 2^31 := by
  constructor
  · intro hall
    by_contra hlong
    have hk : offset / sectorSize < size / sectorSize + 1 := Nat.lt_succ_of_le (Nat.div_le_div_right (by omega))
    have hn : size / sectorSize + 1 ≤ 2^23 := by
      change size / 512 + 1 ≤ 2^23
      omega
    exact long_reads_not_kept hsize (by omega)
      (hall _ _ _ _ _ (.mkdir [66]) (long_geometry _) ⟨fun _ => rfl, fun _ => rfl, rfl⟩
        (long_layout size hk hn)).2
  · intro hlen vol d img root own call hg h hl
    obtain ⟨r, d', img', hexec, hshows, hroot, hkeep⟩ := other_files_untouched hg h hl call
    refine ⟨⟨r, d', img', hexec, hshows, hroot, fun u hu hlive hraw => ?_⟩, r, d', hexec, ?_⟩
    · obtain ⟨hentry, howns, hdata, -⟩ := hkeep u hu hlive hraw
      exact ⟨hentry, howns, hdata⟩
    · rintro u hu hlive hraw hfile rfl
      exact (hkeep u hu hlive hraw).2.2.2 hfile offset len hlen

/-- Creating B next to A, which is read as before. -/
theorem other_files_untouched_iff_small :
    ∃ r d', smallVolume.exec smallDrive (.create [66] [1, 2, 3]) = some (r, d') ∧
      smallVolume.fileRead d' ((smallVolume.image smallDrive).entry smallSlot).toFile 0 128 =
        smallVolume.fileRead smallDrive ((smallVolume.image smallDrive).entry smallSlot).toFile 0 128 := by
  have hshort : min 128 (5 - 0) < 2^31 := by decide
  have hsize : 5 < 2^32 := by decide
  obtain ⟨-, r, d', he, hkeep⟩ := (other_files_untouched_iff hsize).mpr hshort smallVolume smallDrive
    _ [2] smallOwn (.create [66] [1, 2, 3]) small_geometry small_shows small_layout
  exact ⟨r, d', he, hkeep smallSlot (by decide) small_live (by decide +kernel) (by decide +kernel)
    (by decide +kernel)⟩

/-- Reading a file of 2^31 bytes at once gives the sector behind its first cluster too,
which holds the root directory and changes with a new entry. -/
theorem long_read_sees_directory :
    ¬ ∀ (vol : Volume) (d : Drive) (img : Image) (root : List Nat) (own : Slot → List Nat) (call : Call),
      vol.Geometry → vol.Shows d img → vol.Layout img root own →
      ∃ r d', vol.exec d call = some (r, d') ∧
        ∀ u ∈ vol.slots root, (img.entry u).isLive → (img.entry u).rawName ≠ encode83Name call.name →
          (img.entry u).isDirectory = false → ∀ offset len,
          vol.fileRead d' (img.entry u).toFile offset len = vol.fileRead d (img.entry u).toFile offset len := by
  intro hall
  have hl := long_layout (k := 0) (n := 2^22 + 1) (2^31) (by decide) (by decide)
  obtain ⟨r, d', hexec, hkeep⟩ :=
    hall _ _ _ _ _ (.mkdir [66]) (long_geometry 0) ⟨fun _ => rfl, fun _ => rfl, rfl⟩ hl
  have hsize : 2^31 < 2^32 := by decide
  have hlen : 2^31 ≤ min (2^31) (2^31 - 0) := by decide
  exact long_reads_not_kept hsize hlen
    ⟨r, d', hexec, fun u hu hlive hraw hfile _ => hkeep u hu hlive hraw hfile 0 (2^31)⟩

end GeckoOS.Fs.Fat32
