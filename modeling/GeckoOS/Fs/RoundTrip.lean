import GeckoOS.Fs.Isolation
import GeckoOS.Fs.Names

/-! What is written under a name is listed under that name and is read back byte for byte. -/
namespace GeckoOS.Fs.Fat32
open Lib

/-- Reads of 128 bytes from the offset on until one returns 0; `none` if one returns -1. -/
def Volume.readAll (vol : Volume) (d : Drive) (f : File) : Nat → Nat → Option (List UInt8)
  | 0, _ => none
  | fuel+1, offset =>
    match vol.fileRead d f offset 128 with
    | none => none
    | some [] => some []
    | some chunk => (readAll vol d f fuel (offset + 128)).map (chunk ++ ·)

/-- The slot is a live file with this name and content. -/
structure Volume.Holds (vol : Volume) (img : Image) (root : List Nat) (own : Slot → List Nat) (t : Slot)
    (raw : RawName) (content : List UInt8) : Prop where
  mem : t ∈ vol.slots root
  live : (img.entry t).isLive
  name : (img.entry t).rawName = raw
  file : (img.entry t).isDirectory = false
  size : (img.entry t).fileSize = content.length
  content : vol.content img (own t) (img.entry t).fileSize = content

/-- Live entries have different names. -/
def Volume.Distinct (vol : Volume) (img : Image) (root : List Nat) : Prop :=
  ∀ t ∈ vol.slots root, ∀ u ∈ vol.slots root, (img.entry t).isLive → (img.entry u).isLive →
    (img.entry t).rawName = (img.entry u).rawName → t = u

variable {vol : Volume} {d d' : Drive} {img img₁ : Image} {root : List Nat} {own : Slot → List Nat} {t : Slot}
  {raw : RawName} {name base ext content : List UInt8} {call : Call}

theorem readAll_eq {f : File}
    (hread : ∀ offset, vol.fileRead d f offset 128 = some ((content.drop offset).take 128))
    (fuel offset : Nat) (hf : content.length ≤ offset + 128 * fuel) :
    vol.readAll d f (fuel + 1) offset = some (content.drop offset) := by
  have hdone : ∀ fuel offset, content.length ≤ offset →
      vol.readAll d f (fuel + 1) offset = some (content.drop offset) := by
    intro fuel offset hend
    rw [Volume.readAll, hread, List.drop_eq_nil_of_le hend]
    rfl
  induction fuel generalizing offset with
  | zero => exact hdone 0 offset hf
  | succ fuel ih =>
    by_cases hend : content.length ≤ offset
    · exact hdone _ offset hend
    · have hne : (content.drop offset).take 128 ≠ [] := by
        intro h
        have := congrArg List.length h
        simp at this
        omega
      rw [Volume.readAll, hread]
      split
      · next h => cases h
      · next h => exact absurd (Option.some.inj h) hne
      · next h =>
        rw [← Option.some.inj h, ih (offset + 128) (by omega), Option.map_some, ← List.drop_drop,
          List.take_append_drop]

/-- A chain that is long enough holds the content. -/
theorem le_clustersNeeded (hg : vol.Geometry) (len : Nat) : len ≤ vol.clustersNeeded len * vol.clusterSize := by
  have hpos := (clusterSize_eq hg).2.1
  unfold Volume.clustersNeeded
  split
  · omega
  · have hdm := Nat.div_add_mod (len + vol.clusterSize - 1) vol.clusterSize
    have hmod := Nat.mod_lt (len + vol.clusterSize - 1) hpos
    rw [Nat.mul_comm] at hdm
    omega

/-- What `storeAt` stored. -/
theorem Volume.Frame.holds (hg : vol.Geometry) (hl : vol.Layout img root own)
    (hf : vol.Frame img img₁ root own t)
    (ht : t ∈ vol.slots root) {entry : Nat → DirEntry} (hlive : ∀ first, (entry first).isLive)
    (hname : ∀ first, (entry first).rawName = raw) (hfile : ∀ first, (entry first).isDirectory = false)
    (hsize : ∀ first, (entry first).fileSize = content.length % 2^32) (hlen : content.length < 2^32)
    (hs : (vol.storeAt img₁ t content entry).1 = 0) :
    vol.Holds (vol.storeAt img₁ t content entry).2 root
      (Function.update own t (vol.newChain img₁.fat content.length)) t raw content := by
  rcases storeAt_result hg img₁ t content entry with ⟨hfit, he⟩ | ⟨-, -, he⟩
  · have hsize' : (entry (vol.newFirst img₁.fat content.length)).fileSize = content.length := by
      rw [hsize, Nat.mod_eq_of_lt hlen]
    rw [he]
    refine ⟨ht, ?_, ?_, ?_, ?_, ?_⟩ <;> rw [entry_setEntry]
    · exact hlive _
    · exact hname _
    · exact hfile _
    · exact hsize'
    · have hroom : content.length ≤ (vol.newChain img₁.fat content.length).length * vol.clusterSize := by
        rcases placed_chain hg (hfit.imp_left List.length_eq_zero_iff.mpr) with ⟨-, -, hz⟩ | ⟨-, hlen', -⟩
        · omega
        · rw [hlen']
          exact le_clustersNeeded hg content.length
      rw [Function.update_self, hsize']
      have hout : ∀ c ∈ vol.newChain img₁.fat content.length, c ≠ t.cluster := by
        intro c hc hct
        exact (hf.free_notMem hl (mem_newChain hc).2.2).1 (hct ▸ (mem_slots.mp ht).1)
      rw [content_congr fun c hc => setEntry_data_of_ne (hout c hc)]
      exact content_place hg (newChain_nodup ..) hroom
  · rw [he] at hs
    cases hs

/-- The name is free for `fat32_create_file`, or free or a file's for `fat32_write_file`. -/
def Call.Stores (vol : Volume) (img : Image) (root : List Nat) (name content : List UInt8)
    (call : Call) : Prop :=
  (call = .create name content ∧ vol.lookup img root (encode83Name name) = none) ∨
    (call = .write name content ∧ ∀ t ∈ vol.slots root, (img.entry t).isLive →
      (img.entry t).rawName = encode83Name name → (img.entry t).isDirectory = false)

section
variable (hg : vol.Geometry) (hl : vol.Layout img root own)
include hg hl

/-- `fat32_create_file`: there is no slot, or the new file is in one that was not
live, or the clusters run out and that slot is left as it was. -/
theorem create_cases (he : raw 0 ≠ entryEnd) (hf : raw 0 ≠ entryFree) (hlen : content.length < 2^32) :
    (vol.freeSlot img root = none ∧ vol.createImage img root raw content = (-1, img)) ∨
    ∃ t, vol.freeSlot img root = some t ∧ vol.Frame img (vol.createImage img root raw content).2 root own t ∧
      (((content = [] ∨ vol.Fits img.fat content.length) ∧ (vol.createImage img root raw content).1 = 0 ∧
          ∃ own', vol.Layout (vol.createImage img root raw content).2 root own' ∧
            vol.Holds (vol.createImage img root raw content).2 root own' t raw content) ∨
        (content ≠ [] ∧ ¬ vol.Fits img.fat content.length ∧ (vol.createImage img root raw content).1 = -1 ∧
          (vol.createImage img root raw content).2.entry t = img.entry t)) := by
  unfold Volume.createImage
  cases ht : vol.freeSlot img root with
  | none => exact .inl ⟨rfl, rfl⟩
  | some t =>
    have hmem := (freeSlot_spec ht).1
    have hframe : vol.Frame img img root own t := .refl ..
    refine .inr ⟨t, rfl, hframe.storeAt hl hg hmem content _, ?_⟩
    rcases storeAt_result hg img t content fun first =>
        newEntry raw attrArchive today first (content.length % 2^32) with ⟨hfit, hst⟩ | ⟨hne, hfit, hst⟩
    · have hs := congrArg Prod.fst hst
      have hsize : ∀ first, (newEntry raw attrArchive today first (content.length % 2^32)).fileSize =
          content.length % 2^32 := fun first => newEntry_fileSize raw _ _ (Nat.mod_lt _ (by decide))
      exact .inl ⟨hfit, hs, _, hframe.stored hg hl (ends_before_free ht) (fun first => newEntry_isEnd he)
        (fun first => newEntry_cluster raw _ _) hsize hs, hframe.holds hg hl hmem
        (fun first => newEntry_isLive he hf (.inl rfl)) (fun first => newEntry_rawName raw ..)
        (fun first => by simp [DirEntry.isDirectory]; decide) hsize hlen hs⟩
    · refine .inr ⟨hne, hfit, congrArg Prod.fst hst, ?_⟩
      dsimp only
      rw [hst, entry_congr (place_data_of_notMem fun hc =>
        (hl.free_notMem (mem_newChain hc).2.2).1 (mem_slots.mp hmem).1)]

/-- A file that was created under a new name. -/
theorem create_holds (he : raw 0 ≠ entryEnd) (hf : raw 0 ≠ entryFree) (hlen : content.length < 2^32)
    (hnone : vol.lookup img root raw = none) (hs : (vol.createImage img root raw content).1 = 0) :
    ∃ t own', vol.Layout (vol.createImage img root raw content).2 root own' ∧
      vol.Holds (vol.createImage img root raw content).2 root own' t raw content ∧
      ∀ u ∈ vol.slots root, u ≠ t → ((vol.createImage img root raw content).2.entry u).isLive →
        ((vol.createImage img root raw content).2.entry u).rawName ≠ raw := by
  rcases create_cases hg hl he hf hlen with ⟨-, hfail⟩ | ⟨t, -, hframe,
    ⟨-, -, own', hlayout, hholds⟩ | ⟨-, -, hfail, -⟩⟩
  · rw [hfail] at hs
    cases hs
  · refine ⟨t, own', hlayout, hholds, fun u hu hut => ?_⟩
    rw [hframe.entry u hu hut]
    exact lookup_none hnone hu
  · rw [hfail] at hs
    cases hs

/-- `fat32_write_file` over an entry that is there. -/
theorem rewritten (ht : vol.lookup img root raw = some t) (hlen : content.length < 2^32)
    (hs : (vol.writeImage img root own raw content).1 = 0) :
    ∃ own', vol.Layout (vol.writeImage img root own raw content).2 root own' ∧
      (∀ u ∈ vol.slots root, u ≠ t → (vol.writeImage img root own raw content).2.entry u = img.entry u) ∧
      (∃ first size, (vol.writeImage img root own raw content).2.entry t = (img.entry t).rewrite first size) ∧
      ((img.entry t).isDirectory = false →
        vol.Holds (vol.writeImage img root own raw content).2 root own' t raw content) := by
  unfold Volume.writeImage at hs ⊢
  rw [ht] at hs ⊢
  dsimp only at hs ⊢
  obtain ⟨hmem, hlive, hraw⟩ := lookup_spec ht
  have hframe := Volume.Frame.release hl hmem hlive
  have hsize : ∀ first, ((img.entry t).rewrite first (content.length % 2^32)).fileSize =
    content.length % 2^32 :=
    fun first => rewrite_fileSize (Nat.mod_lt _ (by decide))
  have hlayout := hframe.stored hg hl (hl.ends.before_live hmem hlive)
    (fun first => by rw [rewrite_isEnd, isEnd_of_isLive hlive]) (fun first => rewrite_cluster) hsize hs
  refine ⟨_, hlayout, (hframe.storeAt hl hg hmem content _).entry, ?_, fun hfile => ?_⟩
  · rcases storeAt_result hg (img.release (own t)) t content
      fun first => (img.entry t).rewrite first (content.length % 2^32) with ⟨-, he⟩ | ⟨-, -, he⟩
    · rw [he]
      exact ⟨_, _, entry_setEntry ..⟩
    · rw [he] at hs
      cases hs
  · exact hframe.holds hg hl hmem (fun first => by rwa [rewrite_isLive])
      (fun first => rewrite_rawName.trans hraw)
      (fun first => by rw [rewrite_isDirectory, hfile]) hsize hlen hs

private theorem write_holds (hd : vol.Distinct img root) (he : raw 0 ≠ entryEnd) (hf : raw 0 ≠ entryFree)
    (hlen : content.length < 2^31)
    (hfile : ∀ t ∈ vol.slots root, (img.entry t).isLive → (img.entry t).rawName = raw →
      (img.entry t).isDirectory = false)
    (hs : (vol.writeImage img root own raw content).1 = 0) :
    ∃ t own', vol.Layout (vol.writeImage img root own raw content).2 root own' ∧
      vol.Holds (vol.writeImage img root own raw content).2 root own' t raw content ∧
      ∀ u ∈ vol.slots root, u ≠ t → ((vol.writeImage img root own raw content).2.entry u).isLive →
        ((vol.writeImage img root own raw content).2.entry u).rawName ≠ raw := by
  cases ht : vol.lookup img root raw with
  | none =>
    unfold Volume.writeImage at hs ⊢
    rw [ht] at hs ⊢
    exact create_holds hg hl he hf (by omega) ht hs
  | some t =>
    obtain ⟨hmem, hlive, hraw⟩ := lookup_spec ht
    obtain ⟨own', hlayout, hsame, -, hholds⟩ := rewritten hg hl ht (by omega) hs
    refine ⟨t, own', hlayout, hholds (hfile t hmem hlive hraw), fun u hu hut => ?_⟩
    rw [hsame u hu hut]
    exact fun hlu hru => hut (hd u hu t hmem hlu hlive (hru.trans hraw.symm))

end

/-- A file that was created or written successfully is the only one of its name,
is listed under the name in upper case with its size, and reading it in steps of
128 bytes until the end gives the content. -/
theorem written_file_reads_back (hg : vol.Geometry) (h : vol.Shows d img) (hl : vol.Layout img root own)
    (hd : vol.Distinct img root) (hname : Is83 name base ext) (hlen : content.length < 2^31)
    (hcall : call.Stores vol img root name content) (hr : vol.exec d call = some (0, d')) :
    ∃ t ∈ vol.slots root, ((vol.image d').entry t).isLive ∧
      ((vol.image d').entry t).rawName = encode83Name name ∧
      (∀ u ∈ vol.slots root, ((vol.image d').entry u).isLive →
        ((vol.image d').entry u).rawName = encode83Name name → u = t) ∧
      ∃ entries f, vol.getRootEntries d' = some entries ∧ .file f ∈ entries ∧
        f = ((vol.image d').entry t).toFile ∧ f.name = name.map upper ∧ f.fileSize = content.length ∧
        vol.readAll d' f (content.length / 128 + 2) 0 = some content := by
  obtain ⟨he, hf⟩ := encode83Name_first hname.ascii
  obtain ⟨d₁, hexec, h'⟩ := h.exec hg hl call
  obtain ⟨hs, rfl⟩ := Prod.mk.inj (Option.some.inj (hexec.symm.trans hr))
  have hout : ∃ t own', vol.Layout (vol.onImage img root own call).2 root own' ∧
      vol.Holds (vol.onImage img root own call).2 root own' t (encode83Name name) content ∧
      ∀ u ∈ vol.slots root, u ≠ t → ((vol.onImage img root own call).2.entry u).isLive →
        ((vol.onImage img root own call).2.entry u).rawName ≠ encode83Name name := by
    rcases hcall with ⟨rfl, hnone⟩ | ⟨rfl, hfile⟩
    · exact create_holds hg hl he hf (by omega) hnone hs
    · exact write_holds hg hl hd he hf hlen hfile hs
  obtain ⟨t, own', hl', hh, hother⟩ := hout
  rw [h'.image]
  refine ⟨t, hh.mem, hh.live, hh.name, fun u hu hlive hraw =>
    ?_, _, _, h'.getRootEntries hg hl'.rootChain hl'.ends, ?_, rfl, ?_, hh.size, ?_⟩
  · by_contra hut
    exact hother u hu hut hlive hraw
  · refine List.mem_map.mpr ⟨t, List.mem_filter.mpr ⟨hh.mem, hh.live⟩, ?_⟩
    rw [DirEntry.toFsEntry, hh.file]
    rfl
  · rw [DirEntry.toFile, hh.name]
    exact hname.format_encode
  · refine readAll_eq (fun offset => ?_) _ 0 (by omega)
    rw [(hl'.owned t hh.mem hh.live).fileRead hg h' hh.file (by omega), hh.content]

/-- Writing B next to A. -/
theorem written_file_reads_back_small :
    ∃ d' f, smallVolume.exec smallDrive (.write [98] [1, 2, 3]) = some (0, d') ∧
      f.name = [66] ∧ smallVolume.readAll d' f 2 0 = some [1, 2, 3] := by
  obtain ⟨d', he, -⟩ := small_shows.exec small_geometry small_layout (.write [98] [1, 2, 3])
  have hzero : (smallVolume.onImage (smallVolume.image smallDrive) [2] smallOwn
    (.write [98] [1, 2, 3])).1 = 0 := by
    decide +kernel
  rw [hzero] at he
  have hname : Is83 [98] [98] [] := ⟨by decide, by decide, by decide, by simp [NameChar], by simp, rfl⟩
  have hd : smallVolume.Distinct (smallVolume.image smallDrive) [2] :=
    fun t ht u hu hlt hlu _ => (small_only t ht hlt).trans (small_only u hu hlu).symm
  have hfile : Call.Stores smallVolume (smallVolume.image smallDrive) [2] [98] [1, 2, 3]
    (.write [98] [1, 2, 3]) := by
    refine .inr ⟨rfl, fun t ht hlive hraw => ?_⟩
    obtain rfl := small_only t ht hlive
    revert hraw
    decide +kernel
  obtain ⟨t, -, -, -, -, entries, f, -, -, -, hf, -, hread⟩ :=
    written_file_reads_back small_geometry small_shows
    small_layout hd hname (by decide) hfile he
  exact ⟨d', f, he, hf, hread⟩

/-! Files as their readers see them. -/

/-- The name leads to a file, and reads of fewer than 2^31 bytes give slices of the content. -/
def Volume.FileReads (vol : Volume) (d : Drive) (root : List Nat) (raw : RawName)
    (content : List UInt8) : Prop :=
  ∃ t, vol.lookup (vol.image d) root raw = some t ∧ ((vol.image d).entry t).isDirectory = false ∧
    ∀ offset len, len < 2^31 →
      vol.fileRead d ((vol.image d).entry t).toFile offset len = some ((content.drop offset).take len)

/-- No other file or directory has the name. -/
def Volume.Single (vol : Volume) (img : Image) (root : List Nat) (raw : RawName) : Prop :=
  ∀ t ∈ vol.slots root, ∀ u ∈ vol.slots root, (img.entry t).isLive → (img.entry u).isLive →
    (img.entry t).rawName = raw → (img.entry u).rawName = raw → t = u

theorem lookup_eq_some (ht : t ∈ vol.slots root) (hlive : (img.entry t).isLive)
    (hraw : (img.entry t).rawName = raw)
    (hs : vol.Single img root raw) : vol.lookup img root raw = some t := by
  cases h : vol.lookup img root raw with
  | none => exact absurd hraw (lookup_none h ht hlive)
  | some u =>
    obtain ⟨hu, hlu, hru⟩ := lookup_spec h
    rw [hs t ht u hu hlive hlu hraw hru]

theorem Volume.Holds.fileReads (hg : vol.Geometry) (h : vol.Shows d img) (hl : vol.Layout img root own)
    (hh : vol.Holds img root own t raw content) (hs : vol.Single img root raw) :
      vol.FileReads d root raw content := by
  unfold Volume.FileReads
  rw [h.image]
  refine ⟨t, lookup_eq_some hh.mem hh.live hh.name hs, hh.file, fun offset len hlen => ?_⟩
  rw [(hl.owned t hh.mem hh.live).fileRead hg h hh.file (by omega), hh.content]

theorem Volume.FileReads.unique {content' : List UInt8} (h : vol.FileReads d root raw content)
    (h' : vol.FileReads d root raw content') : content = content' := by
  obtain ⟨t, ht, -, hread⟩ := h
  obtain ⟨u, hu, -, hread'⟩ := h'
  obtain rfl := Option.some.inj (ht.symm.trans hu)
  exact content_unique (fun offset => hread offset 1 (by decide)) fun offset => hread' offset 1 (by decide)

/-- The size field limits what can be read. -/
theorem Volume.FileReads.length_lt (h : vol.FileReads d root raw content) : content.length < 2^32 := by
  obtain ⟨t, -, -, hread⟩ := h
  have hsize := fileSize_lt ((vol.image d).entry t)
  have hnone : vol.fileRead d ((vol.image d).entry t).toFile ((vol.image d).entry t).fileSize 1 = some [] :=
    if_pos le_rfl
  rw [hread _ 1 (by decide)] at hnone
  have hlen := congrArg List.length (Option.some.inj hnone)
  rw [List.length_take, List.length_drop, List.length_nil] at hlen
  omega

end GeckoOS.Fs.Fat32
