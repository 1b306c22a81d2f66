import GeckoOS.Fs.Isolation

/-! `fat32_file_write` replaces bytes of a file in place: it reads, changes and
writes back one sector at a time along the chain. -/
namespace GeckoOS.Fs.Fat32
open Lib

/-- Only sectors of these clusters differ. -/
def Volume.OnlyIn (vol : Volume) (l : List Nat) (d d' : Drive) : Prop :=
  ∀ lba, (∀ c ∈ l, ∀ s < vol.sectorsPerCluster, lba ≠ vol.dataSector c s) → d'.sectors lba = d.sectors lba

variable {vol : Volume} {d d' d'' : Drive} {img : Image} {root l l' : List Nat}
  {own : Slot → List Nat} {t : Slot}
  {c off written len : Nat} {buf : List UInt8}

namespace Volume.OnlyIn

theorem refl (l : List Nat) (d : Drive) : vol.OnlyIn l d d := fun _ _ => rfl

theorem trans (h : vol.OnlyIn l d d') (h' : vol.OnlyIn l d' d'') : vol.OnlyIn l d d'' :=
  fun lba hlba => (h' lba hlba).trans (h lba hlba)

theorem mono (h : vol.OnlyIn l d d') (hsub : ∀ c ∈ l, c ∈ l') : vol.OnlyIn l' d d' :=
  fun lba hlba => h lba fun c hc => hlba c (hsub c hc)

variable (hg : vol.Geometry) (h : vol.OnlyIn l d d')
include hg h

/-- The FAT lies in front of the data. -/
theorem fat : (vol.image d').fat = (vol.image d).fat := by
  funext x
  by_cases hx : x < vol.fatEntries
  · have hlt := (hg.fat_lt (hg.fatSector_eq hx).2.2).1
    have hsec : d'.sectors (vol.fatLba + x / entriesPerSector) =
      d.sectors (vol.fatLba + x / entriesPerSector) := by
      apply h
      intro c _ s _
      unfold dataSector
      omega
    simp [Volume.image, hx, hsec]
  · simp [Volume.image, hx]

variable (hin : ∀ c ∈ l, 2 ≤ c ∧ c < vol.fatEntries)
include hin

theorem sector {s : Nat} (hd : vol.InData c s) (hc : c ∉ l) :
    d'.sectors (vol.dataSector c s) = d.sectors (vol.dataSector c s) := by
  apply h
  intro c' hc' s' hs' he
  obtain ⟨rfl, -⟩ := hg.dataSector_inj hd ⟨(hin c' hc').1, (hin c' hc').2, hs'⟩ he
  exact hc hc'

theorem data (hc : c ∉ l) : (vol.image d').data c = (vol.image d).data c := by
  funext s
  by_cases hd : vol.InData c s
  · simp [Volume.image, hd, h.sector hg hin hd hc]
  · simp [Volume.image, hd]

theorem clusterOn (hc : 2 ≤ c ∧ c < vol.fatEntries) (hnot : c ∉ l) {i : Nat} (hi : i < vol.clusterSize) :
    vol.clusterOn d' c i = vol.clusterOn d c i := by
  have hs : i / sectorSize < vol.sectorsPerCluster := Nat.div_lt_of_lt_mul (by rwa [← (clusterSize_eq hg).1])
  unfold Volume.clusterOn
  rw [hg.clusterToLba_eq ⟨hc.1, hc.2, hs⟩, h.sector hg hin ⟨hc.1, hc.2, hs⟩ hnot]

theorem pathView (hin' : ∀ c ∈ l', 2 ≤ c ∧ c < vol.fatEntries) (hdis : l'.Disjoint l) {i : Nat}
    (hi : i < l'.length * vol.clusterSize) : vol.pathView d' l' i = vol.pathView d l' i := by
  have hk : i / vol.clusterSize < l'.length := Nat.div_lt_of_lt_mul (by rwa [Nat.mul_comm])
  have hmem := List.getElem_mem hk
  unfold Volume.pathView
  rw [List.getD_eq_getElem _ _ hk]
  exact h.clusterOn hg hin (hin' _ hmem) (fun hc => hdis hmem hc) (Nat.mod_lt _ (clusterSize_eq hg).2.1)

end Volume.OnlyIn

/-- Part of one sector of a cluster replaced. -/
private theorem clusterOn_update (hg : vol.Geometry) (hc : 2 ≤ c ∧ c < vol.fatEntries) (d : Drive)
    {bs : List UInt8} (hfit : off % sectorSize + bs.length ≤ sectorSize)
    (hs : off / sectorSize < vol.sectorsPerCluster)
    {i : Nat} (hi : i < vol.clusterSize) :
    vol.clusterOn { d with
      sectors := Function.update d.sectors (vol.dataSector c (off / sectorSize))
        ((d.sectors (vol.dataSector c (off / sectorSize))).splice (off % sectorSize) bs) } c i =
      (vol.clusterOn d c).splice off bs i := by
  have hsi : i / sectorSize < vol.sectorsPerCluster := Nat.div_lt_of_lt_mul (by rwa [← (clusterSize_eq hg).1])
  have hdm := Nat.div_add_mod i sectorSize
  have hdm' := Nat.div_add_mod off sectorSize
  have hmod := Nat.mod_lt i (show 0 < sectorSize by decide)
  unfold Volume.clusterOn
  dsimp only
  rw [hg.clusterToLba_eq ⟨hc.1, hc.2, hsi⟩]
  by_cases he : i / sectorSize = off / sectorSize
  · rw [he] at hdm
    rw [he, Function.update_self]
    unfold View.splice
    by_cases hhit : off ≤ i ∧ i < off + bs.length
    · rw [if_pos ⟨by omega, by omega⟩, if_pos hhit, show i % sectorSize - off % sectorSize = i - off by omega]
    · rw [if_neg (by omega), if_neg hhit]
      dsimp only
      rw [hg.clusterToLba_eq ⟨hc.1, hc.2, hsi⟩, he]
  · have hne : vol.dataSector c (i / sectorSize) ≠ vol.dataSector c (off / sectorSize) := fun h =>
      he (hg.dataSector_inj ⟨hc.1, hc.2, hsi⟩ ⟨hc.1, hc.2, hs⟩ h).2
    have hmiss : ¬ (off ≤ i ∧ i < off + bs.length) := by
      unfold sectorSize at *
      omega
    rw [Function.update_of_ne hne, View.splice, if_neg hmiss, hg.clusterToLba_eq ⟨hc.1, hc.2, hsi⟩]

private theorem onlyIn_update {s : Nat} (hs : s < vol.sectorsPerCluster) (tmp : View) :
    vol.OnlyIn [c] d { d with sectors := Function.update d.sectors (vol.dataSector c s) tmp } :=
  fun _ hlba => Function.update_of_ne (hlba c (by simp) s hs) _ _

/-- One cluster: as much as is left to write, or to the end of the cluster. -/
private theorem writeRun_eq (hg : vol.Geometry) (h : vol.Shows d img) (hc : 2 ≤ c ∧ c < vol.fatEntries)
    {fuel : Nat}
    (off written : Nat) (hlen : len < 2^32) (hbuf : len ≤ buf.length)
    (hf : min (len - written) (vol.clusterSize - off) < fuel) :
    ∃ d', vol.writeRun (vol.clusterToLba c) buf len fuel off written d =
        some (true, written + min (len - written) (vol.clusterSize - off), d') ∧
      vol.Shows d' (vol.image d') ∧ vol.OnlyIn [c] d d' ∧ ∀ i < vol.clusterSize, vol.clusterOn d' c i =
        (vol.clusterOn d c).splice off
          ((buf.drop written).take (min (len - written) (vol.clusterSize - off))) i := by
  have hcs := (clusterSize_eq hg).1
  induction fuel generalizing off written d img with
  | zero => omega
  | succ fuel ih =>
    rw [Volume.writeRun]
    by_cases hgo : written < len ∧ off < vol.clusterSize
    · have hs : off / sectorSize < vol.sectorsPerCluster := Nat.div_lt_of_lt_mul (by rw [← hcs]; exact hgo.2)
      have hmod : off % sectorSize < sectorSize := Nat.mod_lt _ (by decide)
      have hend : sectorSize - off % sectorSize ≤ vol.clusterSize - off := by
        have hdm := Nat.div_add_mod off sectorSize
        have hmul := Nat.mul_le_mul_left sectorSize hs
        rw [Nat.mul_succ] at hmul
        omega
      rw [if_pos hgo, hg.clusterToLba_eq ⟨hc.1, hc.2, hs⟩, h.read_eq]
      dsimp only
      rw [h.write_eq, Nat.mod_eq_of_lt (show len - written < 2^32 by omega)]
      dsimp only
      generalize hchunk : (if sectorSize - off % sectorSize < len - written then sectorSize - off % sectorSize
        else len - written) = chunk
      have hle : 0 < chunk ∧ chunk ≤ len - written ∧ chunk ≤ sectorSize - off % sectorSize := by
        split at hchunk <;> omega
      have hbs : ((buf.drop written).take chunk).length = chunk := by
        rw [List.length_take, List.length_drop]
        omega
      have hfit : off % sectorSize + ((buf.drop written).take chunk).length ≤ sectorSize := by omega
      have h₁ : vol.Shows { d with
          sectors := Function.update d.sectors (vol.dataSector c (off / sectorSize))
            ((d.sectors (vol.dataSector c (off / sectorSize))).splice (off % sectorSize)
              ((buf.drop written).take chunk)) } _ := h.update rfl
      obtain ⟨d', he, hsh, honly, hview⟩ := ih h₁ (off + chunk) (written + chunk) (by omega)
      have hrest : chunk + min (len - (written + chunk)) (vol.clusterSize - (off + chunk)) =
          min (len - written) (vol.clusterSize - off) := by omega
      refine ⟨d', by rw [he, Nat.add_assoc, hrest], hsh, (onlyIn_update hs _).trans honly, fun i hi => ?_⟩
      have happ : (buf.drop written).take chunk ++
          (buf.drop (written + chunk)).take (min (len - (written + chunk)) (vol.clusterSize - (off + chunk))) =
          (buf.drop written).take (min (len - written) (vol.clusterSize - off)) := by
        rw [← hrest, List.take_add, List.drop_drop]
      have hstep := clusterOn_update hg hc d hfit hs hi
      rw [hview i hi, ← happ, ← View.splice_append, hbs]
      unfold View.splice at hstep ⊢
      rw [hstep]
    · rw [if_neg hgo, show min (len - written) (vol.clusterSize - off) = 0 by omega]
      exact ⟨d, rfl, ⟨h.reads, h.writes, rfl⟩, .refl _ _, fun i _ => by simp⟩

private theorem writeLoop_done {cluster fuel : Nat} (h : len ≤ written) (hf : 0 < fuel) :
    vol.writeLoop buf len fuel cluster off written d = some (written, d) := by
  obtain ⟨fuel, rfl⟩ := Nat.exists_eq_add_one.mpr hf
  rw [Volume.writeLoop, if_pos h]

/-- What goes to the first cluster and what to the others. -/
private theorem pathView_splice (hpos : 0 < vol.clusterSize) (tl : List Nat) {bs bs' : List UInt8}
    (hfit : off + bs.length ≤ vol.clusterSize) (hcut : off + bs.length = vol.clusterSize ∨ bs' = []) (i : Nat) :
    (vol.pathView d (c :: tl)).splice off (bs ++ bs') i =
      if i < vol.clusterSize then (vol.clusterOn d c).splice off bs i
      else (vol.pathView d tl).splice 0 bs' (i - vol.clusterSize) := by
  rw [View.splice_append_cut _ hfit hcut]
  split
  · next hlt =>
    unfold View.splice
    rw [pathView_cons hpos, if_pos hlt]
  · next hge =>
    unfold View.splice
    rw [pathView_cons hpos, if_neg hge, Nat.sub_zero]
    congr 1
    simp
    omega

/-- Along the chain: everything that is left to write. -/
private theorem writeLoop_eq (hg : vol.Geometry) (h : vol.Shows d img) {cluster last fuel : Nat}
    (hl : Path (vol.nextCluster d) cluster l last) (hin : ∀ c ∈ l, 2 ≤ c ∧ c < vol.fatEntries) (hnd : l.Nodup)
    (hoff : off < vol.clusterSize) (hlen : len < 2^32) (hbuf : len ≤ buf.length) (hw : written ≤ len)
    (hroom : len - written ≤ l.length * vol.clusterSize - off) (hf : len - written < fuel) :
    ∃ d', vol.writeLoop buf len fuel cluster off written d = some (len, d') ∧ vol.Shows d' (vol.image d') ∧
      vol.OnlyIn l d d' ∧ ∀ i < l.length * vol.clusterSize, vol.pathView d' l i =
        (vol.pathView d l).splice off ((buf.drop written).take (len - written)) i := by
  obtain ⟨-, hpos, -⟩ := clusterSize_eq hg
  induction fuel generalizing l off written cluster d img with
  | zero => omega
  | succ fuel ih =>
    by_cases hdone : len ≤ written
    · obtain rfl : written = len := by omega
      rw [writeLoop_done hdone fuel.succ_pos]
      exact ⟨d, rfl, ⟨h.reads, h.writes, rfl⟩, .refl _ _, fun i _ => by simp⟩
    · rw [Volume.writeLoop, if_neg hdone]
      cases l with
      | nil =>
        rw [List.length_nil] at hroom
        omega
      | cons c tl =>
        obtain ⟨rfl, htail⟩ := hl
        obtain ⟨hnot, hnd'⟩ := List.nodup_cons.mp hnd
        have hc := hin cluster (by simp)
        have hin' : ∀ c ∈ tl, 2 ≤ c ∧ c < vol.fatEntries := fun c hc => hin c (by simp [hc])
        have hbad := hg.entries
        obtain ⟨d₁, he₁, hsh₁, honly₁, hview₁⟩ := writeRun_eq hg h hc off written hlen hbuf (Nat.lt_succ_of_le
          (le_trans (Nat.min_le_left _ _) (Nat.sub_le _ _)))
        rw [if_neg (by omega), he₁]
        dsimp only
        generalize hn : min (len - written) (vol.clusterSize - off) = n at *
        have hone : ∀ c ∈ [cluster], 2 ≤ c ∧ c < vol.fatEntries := by simpa using hc
        -- the FAT is not written to, so the rest of the chain is where it was
        have hsame : ∀ x ∈ cluster :: tl, vol.nextCluster d₁ x = vol.nextCluster d x := by
          intro x hx
          rw [hsh₁.nextCluster_eq hg (hin x hx).2, h.nextCluster_eq hg (hin x hx).2, honly₁.fat hg, h.image]
        have htail₁ : Path (vol.nextCluster d₁) (vol.nextCluster d₁ cluster) tl last := by
          rw [hsame _ (by simp)]
          exact htail.congr fun x hx => hsame x (by simp [hx])
        rw [List.length_cons, Nat.add_mul] at hroom
        obtain ⟨d', he', hsh', honly', hview'⟩ :=
          ih hsh₁ htail₁ hin' hnd' hpos (show written + n ≤ len by omega)
          (by omega) (by omega)
        have hnext : vol.writeLoop buf len fuel
            (if written + n < len then vol.nextCluster d₁ cluster else cluster) 0 (written + n) d₁ =
              some (len, d') := by
          rw [← he']
          split
          · rfl
          · have hall : len ≤ written + n := by omega
            rw [writeLoop_done hall (by omega), writeLoop_done hall (by omega)]
        refine ⟨d', hnext, hsh', (honly₁.mono (by simp)).trans (honly'.mono fun c hc => by simp [hc]),
          fun i hi => ?_⟩
        have happ : (buf.drop written).take (len - written) =
            (buf.drop written).take n ++ (buf.drop (written + n)).take (len - (written + n)) := by
          have hsum : len - written = n + (len - (written + n)) := by omega
          rw [hsum, List.take_add, List.drop_drop]
        have hbs : ((buf.drop written).take n).length = n := by
          rw [List.length_take, List.length_drop]
          omega
        have hinside : off + ((buf.drop written).take n).length ≤ vol.clusterSize := by omega
        have hcut : off + ((buf.drop written).take n).length = vol.clusterSize ∨
            (buf.drop (written + n)).take (len - (written + n)) = [] := by
          by_cases hall : n = len - written
          · exact .inr (by simp [show len - (written + n) = 0 by omega])
          · exact .inl (by omega)
        rw [happ, pathView_splice hpos tl hinside hcut, pathView_cons hpos]
        split
        · next hlt => rw [honly'.clusterOn hg hin' hc hnot hlt, hview₁ i hlt]
        · next hge =>
          rw [List.length_cons, Nat.add_mul] at hi
          have hbound : i - vol.clusterSize < tl.length * vol.clusterSize := by omega
          have hback := honly₁.pathView hg hone hin' (by simpa using hnot) hbound
          rw [hview' _ hbound]
          unfold View.splice
          rw [hback]

/-- From an offset on: the clusters before the one of the offset stay as they are. -/
private theorem fileWrite_path (hg : vol.Geometry) (h : vol.Shows d img) {f : File} {last offset : Nat}
    (hl : Path (vol.nextCluster d) f.cluster l last) (hin : ∀ c ∈ l, 2 ≤ c ∧ c < vol.fatEntries) (hnd : l.Nodup)
    (hsize : f.fileSize < 2^32) (hroom : f.fileSize ≤ l.length * vol.clusterSize) (hoff : offset < f.fileSize)
    (hwrap : offset + buf.length < 2^64) :
    ∃ d', vol.fileWrite d f offset buf = some (min buf.length (f.fileSize - offset), d') ∧
      vol.Shows d' (vol.image d') ∧ vol.OnlyIn l d d' ∧ ∀ i < l.length * vol.clusterSize, vol.pathView d' l i =
        (vol.pathView d l).splice offset (buf.take (min buf.length (f.fileSize - offset))) i := by
  obtain ⟨-, hpos, -⟩ := clusterSize_eq hg
  have hbad := hg.entries
  have hdm := Nat.div_add_mod offset vol.clusterSize
  have hmod := Nat.mod_lt offset hpos
  have hk : offset / vol.clusterSize < l.length := Nat.div_lt_of_lt_mul (by rw [Nat.mul_comm]; omega)
  have hdiv : offset / vol.clusterSize % 2^32 = offset / vol.clusterSize :=
    Nat.mod_eq_of_lt (lt_of_le_of_lt (Nat.div_le_self _ _) (by omega))
  have hclamp : (if f.fileSize < add64 offset buf.length then f.fileSize - offset else buf.length) =
      min buf.length (f.fileSize - offset) := by
    rw [add64_eq hwrap]
    split <;> omega
  obtain ⟨next, hskip, hpath⟩ := skipClusters_eq hk hl fun c hc => ⟨(hin c hc).1, by have := hin c hc; omega⟩
  unfold Volume.fileWrite
  rw [if_neg (by omega), hdiv, hskip]
  dsimp only
  rw [hclamp]
  rw [Nat.mul_comm] at hdm
  generalize offset / vol.clusterSize = k at *
  generalize hlen : min buf.length (f.fileSize - offset) = len at *
  have hdrop : (l.drop k).length * vol.clusterSize = l.length * vol.clusterSize - k * vol.clusterSize := by
    rw [List.length_drop, Nat.sub_mul]
  have hin' : ∀ c ∈ l.drop k, 2 ≤ c ∧ c < vol.fatEntries := fun c hc => hin c (List.mem_of_mem_drop hc)
  obtain ⟨d', he, hsh, honly, hview⟩ := writeLoop_eq hg h hpath hin' hnd.drop hmod
    (show len < 2^32 by omega) (show len ≤ buf.length by omega) (Nat.zero_le len) (by omega)
      (Nat.lt_succ_self (len - 0))
  refine ⟨d', he, hsh, honly.mono fun c hc => List.mem_of_mem_drop hc, fun i hi => ?_⟩
  by_cases hlt : i < k * vol.clusterSize
  · have hdis : (l.take k).Disjoint (l.drop k) := by
      rw [← List.take_append_drop k l] at hnd
      exact List.disjoint_of_nodup_append hnd
    have htake : ∀ d : Drive, vol.pathView d l i = vol.pathView d (l.take k) i := by
      intro d
      have hik : i / vol.clusterSize < k := Nat.div_lt_of_lt_mul (by rwa [Nat.mul_comm])
      unfold Volume.pathView
      rw [List.getD_eq_getElem?_getD, List.getD_eq_getElem?_getD, List.getElem?_take_of_lt hik]
    rw [View.splice_of_lt _ _ (by omega), htake, htake,
      honly.pathView hg hin' (fun c hc => hin c (List.mem_of_mem_take hc)) hdis
        (by rwa [List.length_take, Nat.min_eq_left hk.le])]
  · have hback : ∀ d : Drive, vol.pathView d l i = vol.pathView d (l.drop k) (i - k * vol.clusterSize) := by
      intro d
      rw [pathView_drop hpos, Nat.add_sub_cancel' (by omega)]
    rw [hback, hview _ (by omega), List.drop_zero, Nat.sub_zero]
    unfold View.splice
    rw [hback d, show i - k * vol.clusterSize - offset % vol.clusterSize = i - offset by omega]
    congr 1
    simp
    omega

private theorem content_eq (hg : vol.Geometry) (h : vol.Shows d img) (hin : ∀ c ∈ l, 2 ≤ c ∧ c < vol.fatEntries)
    {size : Nat} (hroom : size ≤ l.length * vol.clusterSize) :
    vol.content img l size = (vol.pathView d l).bytes 0 size := by
  rw [Volume.content, Nat.min_eq_left hroom]
  apply View.bytes_congr
  intro i hi
  exact (pathView_eq hg h hin (by omega)).symm

private theorem fileRead_whole (hg : vol.Geometry) (h : vol.Shows d img) {e : DirEntry}
    (ho : vol.Owns img.fat e l)
    (hfile : e.isDirectory = false) (hsize : e.fileSize < 2^31) :
    vol.fileRead d e.toFile 0 e.fileSize = some (vol.content img l e.fileSize) := by
  rw [ho.fileRead hg h hfile (by omega), List.drop_zero, List.take_of_length_le]
  rw [Volume.content, View.bytes_length]
  exact Nat.min_le_left _ _

/-- `fat32_file_write` puts as much of the buffer as the file has room for in the
place of the bytes from the offset on, and changes nothing else of the file, the
FAT, the directory or another file. -/
theorem fileWrite_exact_splice (hg : vol.Geometry) (h : vol.Shows d img) (hl : vol.Layout img root own)
    (ht : t ∈ vol.slots root) (hlive : (img.entry t).isLive) (hfile : (img.entry t).isDirectory = false)
    (hsize : (img.entry t).fileSize < 2^31) (hroom : (img.entry t).fileSize ≤ (own t).length * vol.clusterSize)
    (offset : Nat) (buf : List UInt8) (hwrap : offset + buf.length < 2^64) :
    let f := (img.entry t).toFile
    let n := min buf.length (f.fileSize - offset)
    ∃ content d', vol.fileRead d f 0 f.fileSize = some content ∧ content.length = f.fileSize ∧
      vol.fileWrite d f offset buf = some (n, d') ∧
      vol.fileRead d' f 0 f.fileSize = some (content.take offset ++ buf.take n ++ content.drop (offset + n)) ∧
      vol.OnlyIn (own t) d d' ∧ (vol.image d').fat = img.fat ∧
      (∀ u ∈ vol.slots root, (vol.image d').entry u = img.entry u) ∧
      ∀ u ∈ vol.slots root, (img.entry u).isLive → u ≠ t → ∀ c ∈ own u, (vol.image d').data c = img.data c := by
  intro f n
  have hown := hl.owned t ht hlive
  have hroom : f.fileSize ≤ (own t).length * vol.clusterSize := hroom
  have hread : vol.fileRead d f 0 f.fileSize = some (vol.content img (own t) f.fileSize) :=
    fileRead_whole hg h hown hfile hsize
  have hlength : (vol.content img (own t) f.fileSize).length = f.fileSize := by
    rw [Volume.content, View.bytes_length, Nat.min_eq_left hroom]
  refine ⟨vol.content img (own t) f.fileSize, ?_⟩
  by_cases hoff : f.fileSize ≤ offset
  · have hn : n = 0 := by omega
    refine ⟨d, hread,
      hlength, by rw [hn]; exact if_pos hoff, ?_, .refl _ _, by rw [h.image], fun _ _ => by rw [h.image],
      fun _ _ _ _ _ _ => by rw [h.image]⟩
    rw [hn, List.take_of_length_le (by omega), List.drop_eq_nil_of_le (by omega), hread]
    simp
  · rcases hown with ⟨-, -, hz⟩ | ⟨-, hc⟩
    · exact absurd (hz hfile) (by change f.fileSize ≠ 0; omega)
    · obtain ⟨last, -, hpath⟩ := hc.linked.path
      have hpath' := hpath.congr fun c hc' => h.nextCluster_eq hg (hc.inside c hc').2
      have hsize' : f.fileSize < 2^32 := lt_trans hsize (by decide)
      obtain ⟨d', he, hsh, honly, hview⟩ := fileWrite_path hg h hpath' hc.inside hc.nodup hsize' hroom
        (Nat.lt_of_not_le hoff) hwrap
      have hfat : (vol.image d').fat = img.fat := by rw [honly.fat hg, h.image]
      have hdata : ∀ c ∉ own t, (vol.image d').data c = img.data c := by
        intro c hnot
        rw [honly.data hg hc.inside hnot, h.image]
      refine ⟨d', hread, hlength, he, ?_, honly, hfat, fun u hu => ?_, fun u hu hulive hne c hcu =>
        hdata c fun hct => hl.apart u hu t ht hulive hlive hne hcu hct⟩
      · have hown' := hl.owned t ht hlive
        rw [← hfat] at hown'
        have hbs : (buf.take n).length = n := by
          rw [List.length_take]
          omega
        have hread' : vol.fileRead d' f 0 f.fileSize = some (vol.content (vol.image d') (own t) f.fileSize) :=
          fileRead_whole hg hsh hown' hfile hsize
        have hnew : vol.content (vol.image d') (own t) f.fileSize =
            ((vol.pathView d (own t)).splice offset (buf.take n)).bytes 0 f.fileSize := by
          rw [content_eq hg hsh hc.inside hroom]
          apply View.bytes_congr
          intro i hi
          exact hview _ (by omega)
        have hbytes := View.bytes_splice (vol.pathView d (own t))
          (show offset + (buf.take n).length ≤ f.fileSize by omega)
        rw [hread', hnew, hbytes, hbs, ← content_eq hg h hc.inside hroom]
      · unfold Image.entry
        rw [hdata u.cluster fun hct => hl.apartRoot t ht hlive hct (mem_slots.mp hu).1]

/-- Two bytes of the file on the small drive, and what is behind its end. -/
theorem fileWrite_exact_splice_small :
    ∃ d', smallVolume.fileWrite smallDrive ((smallVolume.image smallDrive).entry smallSlot).toFile 3 [1, 2, 3] =
        some (2, d') ∧
      smallVolume.fileRead d' ((smallVolume.image smallDrive).entry smallSlot).toFile 0 5 =
        some [104, 101, 108, 1, 2] := by
  have hfsize : ((smallVolume.image smallDrive).entry smallSlot).toFile.fileSize = 5 := by decide +kernel
  have hold : smallVolume.fileRead smallDrive ((smallVolume.image smallDrive).entry smallSlot).toFile 0 5 =
      some [104, 101, 108, 108, 111] := by decide +kernel
  have hmem : smallSlot ∈ smallVolume.slots [2] := by decide
  obtain ⟨content, d', hread, -, hwrite, hread', -⟩ :=
    fileWrite_exact_splice small_geometry small_shows small_layout
    hmem (by decide +kernel) (by decide +kernel) (by decide +kernel) (by decide +kernel) 3 [1, 2, 3] (by decide)
  rw [hfsize] at hread hwrite hread'
  obtain rfl := Option.some.inj (hold.symm.trans hread)
  exact ⟨d', hwrite, hread'⟩

end GeckoOS.Fs.Fat32
