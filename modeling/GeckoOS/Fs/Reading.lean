import GeckoOS.Fs.Chains

/-! `fat32_file_read` returns a slice of the bytes along the file's chain. -/
namespace GeckoOS.Fs.Fat32
open Lib

/-- The bytes of a cluster, and of a chain of clusters. -/
def Image.clusterView (img : Image) (c : Nat) : View := fun i => img.data c (i / sectorSize) (i % sectorSize)

def Volume.fileView (vol : Volume) (img : Image) (l : List Nat) : View := fun i =>
  img.clusterView (l.getD (i / vol.clusterSize) 0) (i % vol.clusterSize)

/-- What can be read of a file of the given size on a chain. -/
def Volume.content (vol : Volume) (img : Image) (l : List Nat) (size : Nat) : List UInt8 :=
  (vol.fileView img l).bytes 0 (min size (l.length * vol.clusterSize))

variable {vol : Volume} {d : Drive} {img : Image} {l : List Nat} {c off : Nat}

theorem clusterSize_eq (hg : vol.Geometry) :
    vol.clusterSize = sectorSize * vol.sectorsPerCluster ∧ 0 < vol.clusterSize ∧ vol.clusterSize < 2^31 := by
  have hlt := vol.sectorsPerCluster_lt
  have hpos := hg.cluster
  have he : vol.clusterSize = sectorSize * vol.sectorsPerCluster := by rw [Volume.clusterSize, hg.bytes]
  refine ⟨he, ?_, ?_⟩ <;> rw [he] <;> unfold sectorSize <;> omega

/-! On any drive: the bytes of a cluster, and of some clusters one behind the other. -/

def Volume.clusterOn (vol : Volume) (d : Drive) (c : Nat) : View := fun i =>
  d.sectors (add32 (vol.clusterToLba c) (i / sectorSize)) (i % sectorSize)

def Volume.pathView (vol : Volume) (d : Drive) (l : List Nat) : View := fun i =>
  vol.clusterOn d (l.getD (i / vol.clusterSize) 0) (i % vol.clusterSize)

section path
variable (hr : ∀ lba, d.readFails lba = false)
include hr

private theorem copyRun_eq (vol : Volume) (c : Nat) {fuel toCopy : Nat} (acc : List UInt8)
    (hf : toCopy < fuel) :
    Volume.copyRun d (vol.clusterToLba c) fuel off toCopy acc =
      (true, off + toCopy, acc ++ (vol.clusterOn d c).bytes off toCopy) := by
  induction fuel generalizing off toCopy acc with
  | zero => omega
  | succ fuel ih =>
    rw [Volume.copyRun]
    by_cases hz : toCopy = 0
    · subst hz
      simp
    · have hread : ∀ lba, d.read lba = some (d.sectors lba) := fun lba => by rw [Drive.read, hr]; rfl
      rw [if_neg hz, hread]
      dsimp only
      have hmod : off % sectorSize < sectorSize := Nat.mod_lt _ (by decide)
      generalize hchunk : (if toCopy < sectorSize - off % sectorSize then toCopy
        else sectorSize - off % sectorSize) = chunk
      have hle : chunk ≤ toCopy ∧ 0 < chunk ∧ off % sectorSize + chunk ≤ sectorSize := by
        split at hchunk <;> omega
      rw [ih _ (by omega), List.append_assoc]
      have hbytes : (d.sectors (add32 (vol.clusterToLba c) (off / sectorSize))).bytes (off % sectorSize) chunk =
          (vol.clusterOn d c).bytes off chunk := by
        apply View.bytes_congr
        intro i hi
        have hd : (off + i) / sectorSize = off / sectorSize := by unfold sectorSize at *; omega
        have hm : (off + i) % sectorSize = off % sectorSize + i := by unfold sectorSize at *; omega
        rw [Volume.clusterOn, hd, hm]
      rw [hbytes, ← View.bytes_add, show off + chunk + (toCopy - chunk) = off + toCopy by omega,
        show chunk + (toCopy - chunk) = toCopy by omega]

omit hr in
/-- Inside the first of the clusters, and past it. -/
theorem pathView_cons (hpos : 0 < vol.clusterSize) (tl : List Nat) {i : Nat} :
    vol.pathView d (c :: tl) i =
      if i < vol.clusterSize then vol.clusterOn d c i else vol.pathView d tl (i - vol.clusterSize) := by
  unfold Volume.pathView
  split
  · next hi => rw [Nat.div_eq_of_lt hi, Nat.mod_eq_of_lt hi, List.getD_cons_zero]
  · next hi =>
    have hle : vol.clusterSize ≤ i := by omega
    rw [Nat.div_eq_sub_div hpos hle, List.getD_cons_succ, Nat.mod_eq_sub_mod hle]

omit hr in
theorem pathView_drop (hpos : 0 < vol.clusterSize) (n i : Nat) :
    vol.pathView d (l.drop n) i = vol.pathView d l (n * vol.clusterSize + i) := by
  unfold Volume.pathView
  rw [Nat.mul_comm n, Nat.mul_add_div hpos, Nat.mul_add_mod, List.getD_eq_getElem?_getD,
    List.getD_eq_getElem?_getD, List.getElem?_drop]

omit hr in
/-- The first part is read from the first cluster. -/
theorem pathView_head (hpos : 0 < vol.clusterSize) (tl : List Nat) {n : Nat} (hn : off + n ≤ vol.clusterSize) :
    (vol.pathView d (c :: tl)).bytes off n = (vol.clusterOn d c).bytes off n := by
  apply View.bytes_congr
  intro i hi
  rw [pathView_cons hpos, if_pos (by omega)]

omit hr in
/-- The rest is read from its successors. -/
theorem pathView_tail (hpos : 0 < vol.clusterSize) (tl : List Nat) (n : Nat) :
    (vol.pathView d (c :: tl)).bytes vol.clusterSize n = (vol.pathView d tl).bytes 0 n := by
  apply View.bytes_congr
  intro i hi
  rw [pathView_cons hpos, if_neg (by omega), Nat.add_sub_cancel_left, Nat.zero_add]

omit hr in
/-- How much is copied from a cluster, which is compared as signed. -/
private theorem copySize_eq {left room : Nat} (hleft : left < 2^31) (hroom : room < 2^31) :
    (if int32 room < int32 (left % 2^32) then u32 (int32 room) else left % 2^32) = min left room := by
  rw [Nat.mod_eq_of_lt (by omega), int32_eq (by omega), int32_eq (by omega), u32_natCast (by omega)]
  split <;> omega

omit hr in
private theorem readLoop_done {len fuel cluster : Nat} {acc : List UInt8} (h : len ≤ acc.length)
    (hf : 0 < fuel) :
    vol.readLoop d len fuel cluster off acc = some acc := by
  obtain ⟨fuel, rfl⟩ := Nat.exists_eq_add_one.mpr hf
  rw [Volume.readLoop, if_pos h]

/-- The loop reads along the path, to the end of it or as much as is asked for. -/
private theorem readLoop_eq (hpos : 0 < vol.clusterSize) (hsmall : vol.clusterSize < 2^31)
    {cluster last len fuel : Nat}
    (acc : List UInt8) (hl : Path (vol.nextCluster d) cluster l last) (hin : ∀ c ∈ l, 2 ≤ c ∧ c < clusterBad)
    (hoff : off < vol.clusterSize) (hlen : len < 2^31) (hf : len - acc.length < fuel)
    (hend : len - acc.length ≤ l.length * vol.clusterSize - off ∨ clusterBad ≤ last) :
    vol.readLoop d len fuel cluster off acc =
      some (acc ++ (vol.pathView d l).bytes off
        (min (len - acc.length) (l.length * vol.clusterSize - off))) := by
  induction fuel generalizing l off cluster acc with
  | zero => omega
  | succ fuel ih =>
    by_cases hdone : len ≤ acc.length
    · rw [readLoop_done hdone fuel.succ_pos, show len - acc.length = 0 by omega]
      simp
    · rw [Volume.readLoop, if_neg hdone]
      cases l with
      | nil =>
        obtain rfl : cluster = last := hl
        rw [List.length_nil, Nat.zero_mul] at hend
        rw [if_pos (.inr (by omega))]
        simp
      | cons c tl =>
        obtain ⟨rfl, htail⟩ := hl
        have hc := hin cluster (by simp)
        rw [if_neg (by omega)]
        dsimp only
        rw [copySize_eq (by omega) (by omega), copyRun_eq hr vol cluster acc (by omega)]
        dsimp only
        by_cases hfit : len - acc.length ≤ vol.clusterSize - off
        · have hmin : min (len - acc.length) ((cluster :: tl).length * vol.clusterSize - off) =
            len - acc.length := by
            rw [List.length_cons, Nat.add_mul]
            omega
          have hacc : len ≤ (acc ++ (vol.clusterOn d cluster).bytes off (len - acc.length)).length := by
            rw [List.length_append, View.bytes_length]
            omega
          rw [Nat.min_eq_left hfit, hmin, pathView_head hpos tl (by omega)]
          split
          · exact readLoop_done hacc (by omega)
          · exact readLoop_done hacc (by omega)
        · have hlength : (acc ++ (vol.clusterOn d cluster).bytes off (vol.clusterSize - off)).length =
              acc.length + (vol.clusterSize - off) := by rw [List.length_append, View.bytes_length]
          have hrestEnd : len - (acc ++ (vol.clusterOn d cluster).bytes off (vol.clusterSize - off)).length ≤
              tl.length * vol.clusterSize - 0 ∨ clusterBad ≤ last := by
            rw [List.length_cons, Nat.add_mul] at hend
            omega
          have hrestIn : ∀ c ∈ tl, 2 ≤ c ∧ c < clusterBad := fun c hc => hin c (List.mem_cons_of_mem _ hc)
          rw [Nat.min_eq_right (by omega), if_pos (by omega), ih _ htail hrestIn hpos (by omega) hrestEnd,
            List.append_assoc, hlength, ← pathView_tail hpos tl]
          have hjoin : off + (vol.clusterSize - off) = vol.clusterSize := by omega
          have hhead := pathView_head (d := d) (c := cluster) hpos tl hjoin.le
          have hboth := View.bytes_add (vol.pathView d (cluster :: tl)) off (vol.clusterSize - off)
            (min (len - (acc.length + (vol.clusterSize - off))) (tl.length * vol.clusterSize - 0))
          rw [hjoin, hhead] at hboth
          rw [← hboth, List.length_cons, Nat.add_mul]
          congr 3
          omega

omit hr in
theorem skipClusters_eq {cluster last n : Nat} (hn : n < l.length)
    (hl : Path (vol.nextCluster d) cluster l last) (hin : ∀ c ∈ l, 2 ≤ c ∧ c < clusterBad) :
    ∃ next, vol.skipClusters d n cluster = some next ∧ Path (vol.nextCluster d) next (l.drop n) last := by
  induction n generalizing l cluster with
  | zero => exact ⟨cluster, rfl, by simpa using hl⟩
  | succ n ih =>
    cases l with
    | nil => cases hn
    | cons c tl =>
      obtain ⟨rfl, htail⟩ := hl
      have hn' : n < tl.length := by simpa using hn
      have hnext : vol.nextCluster d cluster < clusterBad := by
        cases tl with
        | nil => cases hn'
        | cons c' tl =>
          rw [htail.1]
          exact (hin c' (by simp)).2
      rw [Volume.skipClusters, if_neg (by omega)]
      exact ih hn' htail fun c hc => hin c (by simp [hc])

omit hr in
private theorem skipClusters_past {cluster last n : Nat} (hne : l ≠ []) (hn : l.length ≤ n)
    (hl : Path (vol.nextCluster d) cluster l last) (hlast : clusterBad ≤ last) :
    vol.skipClusters d n cluster = none := by
  induction n generalizing l cluster with
  | zero => exact absurd (List.length_eq_zero_iff.mp (by omega)) hne
  | succ n ih =>
    cases l with
    | nil => exact absurd rfl hne
    | cons c tl =>
      obtain ⟨rfl, htail⟩ := hl
      rw [Volume.skipClusters]
      split
      · rfl
      · next hgo =>
        refine ih ?_ (by simpa using hn) htail
        rintro rfl
        exact hgo (htail ▸ hlast)

/-- `fat32_file_read` along a path that is long enough for the file or ends: the
slice of the bytes there, unless 2^31 bytes or more are asked for and there. -/
theorem fileRead_path (hpos : 0 < vol.clusterSize) (hsmall : vol.clusterSize < 2^31) {f : File} {last : Nat}
    (hl : Path (vol.nextCluster d) f.cluster l last) (hin : ∀ c ∈ l, 2 ≤ c ∧ c < clusterBad)
    (hend : f.fileSize ≤ l.length * vol.clusterSize ∨ l ≠ [] ∧ clusterBad ≤ last) (hsize : f.fileSize < 2^32)
    {offset len : Nat} (hlen : min len (f.fileSize - offset) < 2^31) :
    vol.fileRead d f offset len =
      some ((((vol.pathView d l).bytes 0 (min f.fileSize (l.length * vol.clusterSize))).drop
        offset).take len) := by
  rw [View.bytes_drop_take, Nat.zero_add, Volume.fileRead]
  by_cases hdone : f.fileSize ≤ offset
  · rw [if_pos hdone, show min len (min f.fileSize (l.length * vol.clusterSize) - offset) = 0 by omega]
    rfl
  · rw [if_neg hdone]
    have hdm := Nat.div_add_mod offset vol.clusterSize
    have hmod := Nat.mod_lt offset hpos
    have hdiv : offset / vol.clusterSize % 2^32 = offset / vol.clusterSize :=
      Nat.mod_eq_of_lt (lt_of_le_of_lt (Nat.div_le_self _ _) (by omega))
    have hclamp : (if f.fileSize - offset < len then f.fileSize - offset else len) =
        min len (f.fileSize - offset) := by split <;> omega
    dsimp only
    rw [hdiv, hclamp]
    by_cases hk : offset / vol.clusterSize < l.length
    · obtain ⟨next, he, hpath⟩ := skipClusters_eq hk hl hin
      have hlen' : (l.drop (offset / vol.clusterSize)).length * vol.clusterSize - offset % vol.clusterSize =
          l.length * vol.clusterSize - offset := by
        rw [List.length_drop, Nat.sub_mul, Nat.mul_comm (offset / _)]
        omega
      have hmin : min (min len (f.fileSize - offset) - 0) (l.length * vol.clusterSize - offset) =
          min len (min f.fileSize (l.length * vol.clusterSize) - offset) := by omega
      have hend' : min len (f.fileSize - offset) - 0 ≤ l.length * vol.clusterSize - offset ∨
        clusterBad ≤ last := by
        omega
      rw [he]
      dsimp only
      rw [readLoop_eq hr hpos hsmall [] hpath (fun c hc => hin c (List.mem_of_mem_drop hc)) hmod (by omega)
        (by rw [List.length_nil]; omega) (by rw [List.length_nil, hlen']; exact hend'), List.nil_append,
        List.length_nil, hlen', hmin]
      congr 1
      apply View.bytes_congr
      intro i _
      rw [pathView_drop hpos, Nat.mul_comm (offset / _), ← Nat.add_assoc, hdm]
    · have hpast : l.length * vol.clusterSize ≤ offset := by
        have := Nat.mul_le_mul_right vol.clusterSize (Nat.le_of_not_lt hk)
        rw [Nat.mul_comm (offset / _)] at this
        omega
      obtain ⟨hne, hlast⟩ := hend.resolve_left (by omega)
      rw [skipClusters_past hne (by omega) hl hlast,
        show min len (min f.fileSize (l.length * vol.clusterSize) - offset) = 0 by omega]
      rfl

/-- With 2^31 bytes or more to copy the signed comparison does not stop at the end of
the cluster: everything is read from the sectors that follow. -/
theorem fileRead_path_past (hpos : 0 < vol.clusterSize) (hsmall : vol.clusterSize < 2^31) {f : File}
    {last : Nat}
    (hl : Path (vol.nextCluster d) f.cluster l last) (hin : ∀ c ∈ l, 2 ≤ c ∧ c < clusterBad)
    (hsize : f.fileSize < 2^32)
    {offset len : Nat} (hk : offset / vol.clusterSize < l.length)
    (hlen : 2^31 ≤ min len (f.fileSize - offset)) :
    vol.fileRead d f offset len =
      some ((vol.clusterOn d (l.getD (offset / vol.clusterSize) 0)).bytes (offset % vol.clusterSize)
        (min len (f.fileSize - offset))) := by
  have hmod := Nat.mod_lt offset hpos
  have hdiv : offset / vol.clusterSize % 2^32 = offset / vol.clusterSize :=
    Nat.mod_eq_of_lt (lt_of_le_of_lt (Nat.div_le_self _ _) (by omega))
  have hclamp : (if f.fileSize - offset < len then f.fileSize - offset else len) =
      min len (f.fileSize - offset) := by split <;> omega
  obtain ⟨next, he, hpath⟩ := skipClusters_eq hk hl hin
  rw [List.drop_eq_getElem_cons hk] at hpath
  obtain ⟨rfl, -⟩ := hpath
  have hc := hin _ (List.getElem_mem hk)
  rw [Volume.fileRead, if_neg (by omega)]
  dsimp only
  rw [hdiv, hclamp, he]
  dsimp only
  have hm : min len (f.fileSize - offset) < 2^32 := by omega
  generalize min len (f.fileSize - offset) = m at hlen hm ⊢
  have hsigned : int32 m < 0 := by
    rw [int32, BitVec.toInt_eq_toNat_cond]
    simp only [BitVec.toNat_ofNat]
    omega
  rw [Volume.readLoop, if_neg (by rw [List.length_nil]; omega), if_neg (by omega)]
  dsimp only
  rw [List.length_nil, Nat.sub_zero, Nat.mod_eq_of_lt hm, int32_eq (n := vol.clusterSize - _) (by omega),
    if_neg (by omega), copyRun_eq hr vol _ [] (by omega)]
  dsimp only
  rw [if_pos (by omega), List.nil_append, readLoop_done (by rw [View.bytes_length]) (by omega),
    List.getD_eq_getElem _ _ hk]

/-- The sectors of a cluster, one behind the other. -/
def Volume.clusterBytes (vol : Volume) (d : Drive) (c : Nat) : List UInt8 :=
  (List.range vol.sectorsPerCluster).flatMap fun s =>
    (d.sectors (add32 (vol.clusterToLba c) s)).bytes 0 sectorSize

omit hr in
private theorem bytes_clusterOn (hbps : vol.bytesPerSector = sectorSize) (c : Nat) :
    (vol.clusterOn d c).bytes 0 vol.clusterSize = vol.clusterBytes d c := by
  rw [Volume.clusterSize, hbps, Nat.mul_comm, View.bytes_blocks, Volume.clusterBytes]
  refine List.flatMap_congr fun s _ => ?_
  apply View.bytes_congr
  intro i hi
  have hdiv : (s * sectorSize + i) / sectorSize = s := by unfold sectorSize at *; omega
  have hmod : (s * sectorSize + i) % sectorSize = 0 + i := by unfold sectorSize at *; omega
  rw [Volume.clusterOn, hdiv, hmod]

omit hr in
private theorem bytes_pathView (hbps : vol.bytesPerSector = sectorSize) (hpos : 0 < vol.clusterSize)
    (l : List Nat) :
    (vol.pathView d l).bytes 0 (l.length * vol.clusterSize) = l.flatMap (vol.clusterBytes d) := by
  induction l with
  | nil => simp
  | cons c tl ih =>
    have hhead : (vol.pathView d (c :: tl)).bytes 0 vol.clusterSize = vol.clusterBytes d c := by
      rw [← bytes_clusterOn hbps]
      apply View.bytes_congr
      intro i hi
      rw [pathView_cons hpos, if_pos (by omega)]
    have htail : (vol.pathView d (c :: tl)).bytes (0 + vol.clusterSize) (tl.length * vol.clusterSize) =
        (vol.pathView d tl).bytes 0 (tl.length * vol.clusterSize) := by
      apply View.bytes_congr
      intro i hi
      rw [pathView_cons hpos, if_neg (by omega)]
      congr 1
      omega
    rw [List.length_cons, Nat.add_mul, Nat.one_mul, Nat.add_comm, View.bytes_add, hhead, htail, ih,
      List.flatMap_cons]

/-- Reads of the given lengths, each from where the one before was to end. -/
def Volume.readChunks (vol : Volume) (d : Drive) (f : File) : Nat → List Nat → Option (List UInt8)
  | _, [] => some []
  | offset, n :: ns => do
    let bytes ← vol.fileRead d f offset n
    let rest ← readChunks vol d f (offset + n) ns
    return bytes ++ rest

omit hr in
private theorem readChunks_eq {f : File} {content : List UInt8}
    (hread : ∀ offset len, len < 2^31 → vol.fileRead d f offset len = some ((content.drop offset).take len))
    (offset : Nat) (lens : List Nat) (hlens : lens.sum < 2^31) :
    vol.readChunks d f offset lens = some ((content.drop offset).take lens.sum) := by
  induction lens generalizing offset with
  | nil => rfl
  | cons n ns ih =>
    rw [List.sum_cons] at hlens ⊢
    rw [Volume.readChunks, hread offset n (by omega), ih (offset + n) (by omega), List.take_add, List.drop_drop]
    rfl

/-- `fat32_file_read` on a file whose first clusters, as many as its size needs,
hold `data`: it copies min(len, size - offset) bytes, those from the offset on.
Reads one behind the other copy what one read copies. -/
theorem fileRead_exact_slice (hbps : vol.bytesPerSector = sectorSize)
    (hspc : 0 < vol.sectorsPerCluster) {f : File}
    {last : Nat} (hl : Path (vol.nextCluster d) f.cluster l last) (hin : ∀ c ∈ l, 2 ≤ c ∧ c < clusterBad)
    (hlen : (f.fileSize + vol.clusterSize - 1) / vol.clusterSize ≤ l.length) (hsize : f.fileSize < 2^32)
    {data : List UInt8} (hdata : data = l.flatMap (vol.clusterBytes d)) :
    (∀ offset len, len < 2^31 → ∃ bytes, vol.fileRead d f offset len = some bytes ∧
      bytes.length = min len (f.fileSize - offset) ∧ bytes = (data.drop offset).take bytes.length) ∧
    ∀ offset lens, lens.sum < 2^31 → vol.readChunks d f offset lens = vol.fileRead d f offset lens.sum := by
  have hcs : vol.clusterSize = sectorSize * vol.sectorsPerCluster := by rw [Volume.clusterSize, hbps]
  have hbound := vol.sectorsPerCluster_lt
  have hpos : 0 < vol.clusterSize ∧ vol.clusterSize < 2^31 := by
    rw [hcs]
    unfold sectorSize
    omega
  have hroom : f.fileSize ≤ l.length * vol.clusterSize := by
    have hdm := Nat.div_add_mod (f.fileSize + vol.clusterSize - 1) vol.clusterSize
    have hmod := Nat.mod_lt (f.fileSize + vol.clusterSize - 1) hpos.1
    have hmul := Nat.mul_le_mul_right vol.clusterSize hlen
    rw [Nat.mul_comm] at hdm
    omega
  have hlength : data.length = l.length * vol.clusterSize := by
    rw [hdata, ← bytes_pathView hbps hpos.1, View.bytes_length]
  have hcontent : (vol.pathView d l).bytes 0 (min f.fileSize (l.length * vol.clusterSize)) =
    data.take f.fileSize := by
    have htake := View.bytes_drop_take (vol.pathView d l) 0 (l.length * vol.clusterSize) 0 f.fileSize
    rw [hdata, ← bytes_pathView hbps hpos.1]
    simpa using htake.symm
  have hread : ∀ offset len, len < 2^31 →
      vol.fileRead d f offset len = some (((data.take f.fileSize).drop offset).take len) := by
    intro offset len hlt
    rw [fileRead_path hr hpos.1 hpos.2 hl hin (.inl hroom) hsize (by omega), hcontent]
  refine ⟨fun offset len hlt => ⟨_, hread offset len hlt, ?_, ?_⟩, fun offset lens hlens => ?_⟩
  · rw [List.length_take, List.length_drop, List.length_take]
    omega
  · rw [List.drop_take, List.take_take, List.length_take, List.length_drop]
    congr 1
    omega
  · rw [readChunks_eq hread offset lens hlens, hread offset _ hlens]

end path

/-- Five bytes of a drive on which every byte is 7, in two reads. -/
theorem fileRead_exact_slice_sevens :
    let vol : Volume := ⟨512, 1, 1, 0, 1, 2, 1, by decide⟩
    let d : Drive := ⟨fun _ _ => 7, fun _ => false, fun _ => false⟩
    vol.readChunks d ⟨[65], 5, 2⟩ 0 [2, 4] = vol.fileRead d ⟨[65], 5, 2⟩ 0 6 := by
  intro vol d
  let f : File := ⟨[65], 5, 2⟩
  have hl : Path (vol.nextCluster d) f.cluster [2] (vol.nextCluster d 2) := ⟨rfl, rfl⟩
  exact (fileRead_exact_slice (fun _ => rfl) rfl (by decide) hl (by simp [clusterBad]) (by decide) (by decide)
    rfl).2 0 [2, 4] (by decide)

theorem fileView_drop (n i : Nat) (hpos : 0 < vol.clusterSize) :
    vol.fileView img (l.drop n) i = vol.fileView img l (n * vol.clusterSize + i) := by
  unfold Volume.fileView
  rw [Nat.mul_comm n, Nat.mul_add_div hpos, Nat.mul_add_mod, List.getD_eq_getElem?_getD,
    List.getD_eq_getElem?_getD, List.getElem?_drop]

/-- Along a chain of the image the two views agree. -/
theorem pathView_eq (hg : vol.Geometry) (h : vol.Shows d img)
    (hin : ∀ c ∈ l, 2 ≤ c ∧ c < vol.fatEntries) {i : Nat}
    (hi : i < l.length * vol.clusterSize) : vol.pathView d l i = vol.fileView img l i := by
  obtain ⟨hcs, hpos, -⟩ := clusterSize_eq hg
  have hk : i / vol.clusterSize < l.length := Nat.div_lt_of_lt_mul (by rwa [Nat.mul_comm])
  have hmod := Nat.mod_lt i hpos
  have hsec : i % vol.clusterSize / sectorSize < vol.sectorsPerCluster := Nat.div_lt_of_lt_mul (by rwa [← hcs])
  have hmem := hin _ (List.getElem_mem hk)
  unfold Volume.pathView Volume.fileView Volume.clusterOn Image.clusterView
  rw [List.getD_eq_getElem _ _ hk]
  have hread := h.read_data hg ⟨hmem.1, hmem.2, hsec⟩
  rw [h.read_eq] at hread
  rw [Option.some.inj hread]

/-- The chain of a file as the driver follows it. -/
private theorem Volume.Shows.path (hg : vol.Geometry) (h : vol.Shows d img) {first : Nat}
    (hl : vol.Chain img.fat first l) :
    ∃ last, clusterBad ≤ last ∧ Path (vol.nextCluster d) first l last ∧ ∀ c ∈ l, 2 ≤ c ∧ c < clusterBad := by
  have hent := hg.entries
  obtain ⟨last, hlast, hpath⟩ := hl.linked.path
  have hstop : clusterBad ≤ last := by
    unfold clusterEoc at hlast
    unfold clusterBad
    omega
  exact ⟨last, hstop, hpath.congr fun c hc => h.nextCluster_eq hg (hl.inside c hc).2,
    fun c hc => ⟨(hl.inside c hc).1, by have := hl.inside c hc; omega⟩⟩

/-- `fat32_file_read` on a file with a chain: the slice of its content, unless 2^31
bytes or more are asked for and there. -/
theorem Volume.Shows.fileRead (hg : vol.Geometry) (h : vol.Shows d img) {f : File} (hne : l ≠ [])
    (hl : vol.Chain img.fat f.cluster l) (hsize : f.fileSize < 2^32) {offset len : Nat}
    (hlen : min len (f.fileSize - offset) < 2^31) :
    vol.fileRead d f offset len = some (((vol.content img l f.fileSize).drop offset).take len) := by
  obtain ⟨-, hpos, hsmall⟩ := clusterSize_eq hg
  obtain ⟨last, hstop, hpath, hin⟩ := h.path hg hl
  rw [fileRead_path h.reads hpos hsmall hpath hin (.inr ⟨hne, hstop⟩) hsize hlen, Volume.content]
  congr 3
  apply View.bytes_congr
  intro i hi
  exact pathView_eq hg h hl.inside (by omega)

/-- A longer read goes on behind the cluster in which it starts. -/
theorem Volume.Shows.fileRead_runs_on (hg : vol.Geometry) (h : vol.Shows d img) {f : File}
    (hl : vol.Chain img.fat f.cluster l) (hsize : f.fileSize < 2^32) {offset len : Nat}
    (hk : offset / vol.clusterSize < l.length) (hlen : 2^31 ≤ min len (f.fileSize - offset)) :
    vol.fileRead d f offset len =
      some ((vol.clusterOn d (l.getD (offset / vol.clusterSize) 0)).bytes (offset % vol.clusterSize)
        (min len (f.fileSize - offset))) := by
  obtain ⟨-, hpos, hsmall⟩ := clusterSize_eq hg
  obtain ⟨last, -, hpath, hin⟩ := h.path hg hl
  exact fileRead_path_past h.reads hpos hsmall hpath hin hsize hk hlen

/-- The bytes along a placed chain. -/
theorem fileView_place (hg : vol.Geometry) {content : List UInt8} (hl : l.Nodup) {i : Nat}
    (hi : i < l.length * vol.clusterSize) : vol.fileView (vol.place img l content) l i = content.getD i 0 := by
  obtain ⟨hcs, hpos, -⟩ := clusterSize_eq hg
  have hk : i / vol.clusterSize < l.length := Nat.div_lt_of_lt_mul (by rwa [Nat.mul_comm])
  have hmod := Nat.mod_lt i hpos
  have hdm := Nat.div_add_mod i vol.clusterSize
  have hsec : i % vol.clusterSize / sectorSize < vol.sectorsPerCluster := Nat.div_lt_of_lt_mul (by rwa [← hcs])
  unfold Volume.fileView Image.clusterView
  rw [List.getD_eq_getElem _ _ hk]
  dsimp only [Volume.place]
  rw [if_pos ⟨List.getElem_mem hk, hsec⟩, hl.idxOf_getElem, pad, if_pos (Nat.mod_lt _ (by decide)), Nat.mul_add,
    ← Nat.mul_assoc, Nat.mul_right_comm, ← hcs, Nat.add_assoc, Nat.div_add_mod, hdm]

theorem content_place (hg : vol.Geometry) {content : List UInt8} (hl : l.Nodup)
    (hfit : content.length ≤ l.length * vol.clusterSize) :
    vol.content (vol.place img l content) l content.length = content := by
  rw [Volume.content, Nat.min_eq_left hfit]
  apply List.ext_getElem
  · simp
  · intro i h1 h2
    have hi : 0 + i < l.length * vol.clusterSize := by omega
    simp only [View.bytes, List.getElem_map, List.getElem_range]
    rw [fileView_place hg hl hi, Nat.zero_add, List.getD_eq_getElem _ _ h2]

/-- The content from a later cluster of a placed chain on that is completely filled. -/
theorem content_place_drop (hg : vol.Geometry) {content : List UInt8} (hl : l.Nodup) (k size : Nat)
    (hfull : l.length * vol.clusterSize ≤ content.length) :
    vol.content (vol.place img l content) (l.drop k) size =
      ((content.take (l.length * vol.clusterSize)).drop (k * vol.clusterSize)).take size := by
  have hpos := (clusterSize_eq hg).2.1
  rw [Volume.content, List.length_drop, Nat.sub_mul]
  apply List.ext_getElem
  · simp
    omega
  · intro i h1 h2
    simp only [View.bytes_length] at h1
    have hi : k * vol.clusterSize + (0 + i) < l.length * vol.clusterSize := by omega
    simp only [View.bytes, List.getElem_map, List.getElem_range, List.getElem_take, List.getElem_drop]
    rw [fileView_drop _ _ hpos, fileView_place hg hl hi, List.getD_eq_getElem _ _ (by omega)]
    simp only [Nat.zero_add]

/-- Reads of one byte tell contents apart. -/
theorem content_unique {read : Nat → Option (List UInt8)} {content content' : List UInt8}
    (h : ∀ offset, read offset = some ((content.drop offset).take 1))
    (h' : ∀ offset, read offset = some ((content'.drop offset).take 1)) : content = content' := by
  refine List.ext_getElem? fun i => ?_
  have hi := congrArg (·[0]?) (Option.some.inj ((h i).symm.trans (h' i)))
  simpa using hi

/-- A file without content is read as empty. -/
theorem fileRead_empty (d : Drive) {f : File} (hsize : f.fileSize = 0) (offset len : Nat) :
    vol.fileRead d f offset len = some [] := by
  rw [Volume.fileRead, if_pos (by omega)]

end GeckoOS.Fs.Fat32
