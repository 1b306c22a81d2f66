import GeckoOS.Fs.CatalogueCalls

/-! Whole runs of calls: the drive answers as the catalogue does, and lists and
reads back what the catalogue says at the end. -/
namespace GeckoOS.Fs.Fat32
open Lib

def Call.content : Call → List UInt8
  | .create _ content | .write _ content | .append _ content => content
  | .delete _ | .mkdir _ => []

/-- A name of at most eight and three characters, and a content whose length has 32 bits. -/
structure Call.Plain (call : Call) : Prop where
  name : ∃ base ext, Is83 call.name base ext
  content : call.content.length < 2^32

def FsEntry.name : FsEntry → List UInt8
  | .file f => f.name
  | .directory name => name

namespace Volume
variable (vol : Volume)

/-- A listed entry stands for the object: a file has its size and gives its content
when it is read in steps of 128 bytes. -/
def StandsFor (d : Drive) : FsEntry → Object → Prop
  | .file f, .file content =>
    f.fileSize = content.length ∧ vol.readAll d f (content.length / 128 + 2) 0 = some content
  | .directory _, .directory => True
  | _, _ => False

/-- The listing has each name of the catalogue once, in upper case and with its
object, and no others; and as many clusters are free. -/
structure Offers (d : Drive) (c : Catalogue) (entries : List FsEntry) : Prop where
  listed : vol.getRootEntries d = some entries
  nodup : (entries.map FsEntry.name).Nodup
  found : ∀ e ∈ entries, ∃ name base ext h, Is83 name base ext ∧ e.name = name.map upper ∧
    c.find (encode83Name name) = some h ∧ vol.StandsFor d e h.object
  shown : ∀ name base ext h, Is83 name base ext → c.find (encode83Name name) = some h →
    ∃ e ∈ entries, e.name = name.map upper ∧ vol.StandsFor d e h.object
  clusters : (vol.freeClusters (vol.image d).fat).length = c.clusters

end Volume

variable {vol : Volume} {d d' : Drive} {img img' : Image} {root : List Nat} {own own' : Slot → List Nat}
  {t u : Slot}
  {raw : RawName} {name base ext content old : List UInt8} {c c' : Catalogue} {call : Call} {z : Int}
  {need : Nat → Nat}

namespace Catalogue

private theorem create_find {h : Holding} (hcreate : c.create need raw content = (z, c'))
    (hfind : c'.find raw' = some h) (hr : raw' ≠ raw) : c.find raw' = some h := by
  unfold create at hcreate
  split at hcreate
  · obtain ⟨-, rfl⟩ := Prod.mk.inj hcreate
    exact hfind
  · split at hcreate
    · obtain ⟨-, rfl⟩ := Prod.mk.inj hcreate
      simpa only [store, Function.update_of_ne hr] using hfind
    · obtain ⟨-, rfl⟩ := Prod.mk.inj hcreate
      exact hfind

/-- A step puts nothing under other names. -/
theorem step_find {h : Holding} (hstep : c.step need call = some (z, c')) (hfind : c'.find raw = some h)
    (hr : raw ≠ encode83Name call.name) : c.find raw = some h := by
  cases call with
  | create name content =>
    simp only [step] at hstep
    split at hstep
    · exact create_find (Option.some.inj hstep) hfind hr
    · cases hstep
  | write name content =>
    simp only [step] at hstep
    split at hstep
    · exact create_find (Option.some.inj hstep) hfind hr
    · split at hstep
      · obtain ⟨-, rfl⟩ := Prod.mk.inj (Option.some.inj hstep)
        exact (Function.update_of_ne hr ..).symm.trans hfind
      · cases hstep
  | delete name =>
    simp only [step] at hstep
    split at hstep
    · obtain ⟨-, rfl⟩ := Prod.mk.inj (Option.some.inj hstep)
      exact hfind
    · obtain ⟨-, rfl⟩ := Prod.mk.inj (Option.some.inj hstep)
      exact (Function.update_of_ne hr ..).symm.trans hfind
  | append name content =>
    simp only [step] at hstep
    split at hstep
    · exact create_find (Option.some.inj hstep) hfind hr
    · cases hstep
    · have hkept := create_find (Option.some.inj hstep) hfind hr
      exact (Function.update_of_ne hr ..).symm.trans hkept
  | mkdir name =>
    simp only [step] at hstep
    split at hstep
    · cases hstep
    · split at hstep
      · obtain ⟨-, rfl⟩ := Prod.mk.inj (Option.some.inj hstep)
        exact hfind
      · obtain ⟨-, rfl⟩ := Prod.mk.inj (Option.some.inj hstep)
        exact (Function.update_of_ne hr ..).symm.trans hfind

theorem Regular.step (hc : c.Regular) (hcall : call.Plain) (hstep : c.step need call = some (z, c')) :
    c'.Regular := by
  intro raw h hfind
  by_cases hr : raw = encode83Name call.name
  · obtain ⟨base, ext, hname⟩ := hcall.name
    exact ⟨call.name, base, ext, hname, hr⟩
  · exact hc raw h (step_find hstep hfind hr)

end Catalogue

/-- A slot that holds a file. -/
private theorem holding_file {n : Nat} (h : vol.holding img own t = ⟨.file content, n⟩) :
    (img.entry t).isDirectory = false ∧ vol.content img (own t) (img.entry t).fileSize = content := by
  have hobject := congrArg Holding.object h
  unfold Volume.holding at hobject
  dsimp only at hobject
  cases hdir : (img.entry t).isDirectory with
  | false =>
    rw [hdir, if_neg Bool.false_ne_true] at hobject
    exact ⟨rfl, Object.file.inj hobject⟩
  | true =>
    rw [hdir, if_pos rfl] at hobject
    cases hobject

section append
variable (hk : vol.Keeps img root own c) (hc : c.Regular) (hname : Is83 name base ext)
include hk hc hname

private theorem unnamed (hnone : c.find (encode83Name name) = none) : vol.Unnamed img root name := by
  intro u hu hlive hshown
  have hraw := (shown_iff hk hc hname hu hlive).mp hshown
  exact hk.find_none hnone ⟨hu, hlive, hraw⟩

/-- The listing leads to the file that the raw name leads to. -/
private theorem listedSlot_eq (hlookup : vol.lookup img root (encode83Name name) = some t)
    (hfile : (img.entry t).isDirectory = false) : vol.listedSlot img root name = some t := by
  obtain ⟨hmem, hlive, hraw⟩ := lookup_spec hlookup
  have hlisted : ∀ u, Volume.sameName ((format83Name (img.entry u).rawName).takeWhile (· != 0)) name = true ↔
      (img.entry u).shown = name.map upper := fun u => sameName_iff _ _
  cases hs : vol.listedSlot img root name with
  | none =>
    have hno := List.find?_eq_none.mp hs t hmem
    simp [hlive, hfile, (hlisted t).mpr (hname.shown hraw)] at hno
  | some u =>
    obtain ⟨hmemu, hliveu, -⟩ := listedSlot_spec hs
    have hu := List.find?_some hs
    rw [Bool.and_eq_true] at hu
    have hrawu := (shown_iff hk hc hname hmemu hliveu).mp ((hlisted u).mp hu.2)
    rw [hk.distinct u hmemu t hmem hliveu hlive (hrawu.trans hraw.symm)]

/-- `fat32_append_file` under a new name. -/
private theorem append_new_keeps (hg : vol.Geometry) (hnone : c.find (encode83Name name) = none)
    (hcreate : c.create vol.clustersNeeded (encode83Name name) (Volume.appendBuf [] content) = (z, c')) :
    (vol.appendImage img root own name content).1 = z ∧
      ∃ own', vol.Keeps (vol.appendImage img root own name content).2 root own' c' := by
  obtain ⟨he, hf⟩ := encode83Name_first hname.ascii
  have hlisted := ((unnamed hk hc hname hnone).not_found hname).1
  have hbase : vol.appendBase img root own name = img := by simp only [Volume.appendBase, hlisted]
  have hbuf : vol.appendContent img root own name content = Volume.appendBuf [] content := by
    simp only [Volume.appendContent, hlisted]
  have hlen : (Volume.appendBuf [] content).length < 2^32 := by
    simp only [Volume.appendBuf, List.length_append, List.length_take, List.length_nil]
    omega
  unfold Volume.appendImage
  rw [hbase, hbuf]
  exact create_keeps hk hg he hf hlen hnone hcreate

/-- `fat32_append_file` to a file. -/
private theorem append_file_keeps (hg : vol.Geometry) {n : Nat}
    (hfind : c.find (encode83Name name) = some ⟨.file old, n⟩)
    (hcreate : (c.remove (encode83Name name) ⟨.file old, n⟩).create vol.clustersNeeded (encode83Name name)
      (Volume.appendBuf (old.take 4000) content) = (z, c')) :
    (vol.appendImage img root own name content).1 = z ∧
      ∃ own', vol.Keeps (vol.appendImage img root own name content).2 root own' c' := by
  obtain ⟨he, hf⟩ := encode83Name_first hname.ascii
  obtain ⟨t, ht, -, hholding⟩ := hk.lookup_some hfind
  obtain ⟨hfile, hcontent⟩ := holding_file hholding
  have hlisted := listedSlot_eq hk hc hname ht hfile
  have hbase : vol.appendBase img root own name = (vol.deleteImage img root own (encode83Name name)).2 := by
    simp only [Volume.appendBase, hlisted]
  have hbuf : vol.appendContent img root own name content = Volume.appendBuf (old.take 4000) content := by
    simp only [Volume.appendContent, hlisted, hcontent]
  have hlen : (Volume.appendBuf (old.take 4000) content).length < 2^32 := by
    simp only [Volume.appendBuf, List.length_append, List.length_take]
    omega
  obtain ⟨-, hk'⟩ := delete_keeps hk hfind
  unfold Volume.appendImage
  rw [hbase, hbuf]
  exact create_keeps hk' hg he hf hlen (Function.update_self ..) hcreate

end append

/-- Where the catalogue answers, the call on the image gives the same answer. -/
theorem step_keeps (hg : vol.Geometry) (hk : vol.Keeps img root own c) (hc : c.Regular) (hcall : call.Plain)
    (hstep : c.step vol.clustersNeeded call = some (z, c')) :
    (vol.onImage img root own call).1 = z ∧
    ∃ own', vol.Keeps (vol.onImage img root own call).2 root own' c' := by
  obtain ⟨⟨base, ext, hname⟩, hlen⟩ := hcall
  obtain ⟨he, hf⟩ := encode83Name_first hname.ascii
  cases call with
  | create name content =>
    simp only [Catalogue.step] at hstep
    split at hstep
    · next hnone => exact create_keeps hk hg he hf hlen hnone (Option.some.inj hstep)
    · cases hstep
  | write name content =>
    simp only [Catalogue.step] at hstep
    split at hstep
    · next hnone =>
      dsimp only [Volume.onImage]
      unfold Volume.writeImage
      rw [hk.lookup_none hnone]
      exact create_keeps hk hg he hf hlen hnone (Option.some.inj hstep)
    · next h hfind =>
      split at hstep
      · next hfit =>
        obtain ⟨rfl, rfl⟩ := Prod.mk.inj (Option.some.inj hstep)
        exact write_keeps hk hg hlen hfind hfit
      · cases hstep
  | delete name =>
    simp only [Catalogue.step] at hstep
    split at hstep
    · next hnone =>
      obtain ⟨rfl, rfl⟩ := Prod.mk.inj (Option.some.inj hstep)
      dsimp only [Volume.onImage]
      unfold Volume.deleteImage
      rw [hk.lookup_none hnone]
      exact ⟨rfl, own, hk⟩
    · next h hfind =>
      obtain ⟨rfl, rfl⟩ := Prod.mk.inj (Option.some.inj hstep)
      obtain ⟨hz, hk'⟩ := delete_keeps hk hfind
      exact ⟨hz, _, hk'⟩
  | append name content =>
    simp only [Catalogue.step] at hstep
    split at hstep
    · next hnone => exact append_new_keeps hk hc hname hg hnone (Option.some.inj hstep)
    · cases hstep
    · next old n hfind => exact append_file_keeps hk hc hname hg hfind (Option.some.inj hstep)
  | mkdir name =>
    simp only [Catalogue.step] at hstep
    split at hstep
    · cases hstep
    · next hnone =>
      split at hstep
      · next hz =>
        obtain ⟨rfl, rfl⟩ := Prod.mk.inj (Option.some.inj hstep)
        dsimp only [Volume.onImage]
        unfold Volume.mkdirImage
        rw [hk.places.mp hz]
        exact ⟨rfl, own, hk⟩
      · next hplaces =>
        obtain ⟨rfl, rfl⟩ := Prod.mk.inj (Option.some.inj hstep)
        exact mkdir_keeps hk he hf hnone hplaces

/-- A live entry in the listing. -/
private theorem standsFor (hg : vol.Geometry) (h : vol.Shows d img) (hk : vol.Keeps img root own c)
    (hmem : t ∈ vol.slots root) (hlive : (img.entry t).isLive) :
    vol.StandsFor d (img.entry t).toFsEntry (vol.holding img own t).object := by
  unfold DirEntry.toFsEntry Volume.holding
  cases hdir : (img.entry t).isDirectory with
  | true => trivial
  | false =>
    have hsize := hk.sized t hmem hlive hdir
    refine ⟨hsize.symm, ?_⟩
    rw [hsize]
    refine readAll_eq (fun offset => ?_) _ 0 (hsize.le.trans (by omega))
    exact (hk.owned t hmem hlive).fileRead hg h hdir (by omega)

private theorem toFsEntry_name (e : DirEntry) : e.toFsEntry.name = format83Name e.rawName := by
  unfold DirEntry.toFsEntry
  split <;> rfl

/-- A drive that shows an image with the catalogue `c` offers it. -/
theorem Volume.Keeps.offers (hg : vol.Geometry) (h : vol.Shows d img) (hk : vol.Keeps img root own c)
    (hc : c.Regular) : ∃ entries, vol.Offers d c entries := by
  have hname : ∀ {t}, t ∈ vol.slots root → (img.entry t).isLive →
      ∃ name base ext, Is83 name base ext ∧ (img.entry t).rawName = encode83Name name ∧
        (img.entry t).toFsEntry.name = name.map upper ∧
        c.find (encode83Name name) = some (vol.holding img own t) := by
    intro t hmem hlive
    have hfind := hk.find ⟨hmem, hlive, rfl⟩
    obtain ⟨name, base, ext, hname, hraw⟩ := hc _ _ hfind
    refine ⟨name, base, ext, hname, hraw, ?_, hraw ▸ hfind⟩
    rw [toFsEntry_name, hraw, hname.format_encode]
  refine ⟨vol.listing img root, h.getRootEntries hg hk.rootChain hk.ends, ?_, ?_, ?_, ?_⟩
  · unfold Volume.listing
    rw [List.map_map]
    refine List.Nodup.map_on (fun t ht u hu heq => ?_) ((slots_nodup hk.rootChain.nodup).filter _)
    obtain ⟨ht, hlt⟩ := List.mem_filter.mp ht
    obtain ⟨hu, hlu⟩ := List.mem_filter.mp hu
    obtain ⟨name, -, -, -, hraw, hshown, -⟩ := hname ht hlt
    obtain ⟨name', -, -, -, hraw', hshown', -⟩ := hname hu hlu
    have hupper : name.map upper = name'.map upper := hshown.symm.trans (Eq.trans heq hshown')
    refine hk.distinct t ht u hu hlt hlu ?_
    rw [hraw, hraw', ← encode83Name_upper name, hupper, encode83Name_upper]
  · intro e he
    obtain ⟨t, ht, rfl⟩ := List.mem_map.mp he
    obtain ⟨hmem, hlive⟩ := List.mem_filter.mp ht
    obtain ⟨name, base, ext, h83, -, hshown, hfind⟩ := hname hmem hlive
    exact ⟨name, base, ext, _, h83, hshown, hfind, standsFor hg h hk hmem hlive⟩
  · intro name base ext h' h83 hfind
    obtain ⟨t, -, ⟨hmem, hlive, hraw⟩, rfl⟩ := hk.lookup_some hfind
    refine ⟨_, List.mem_map.mpr ⟨t, List.mem_filter.mpr ⟨hmem, hlive⟩, rfl⟩, ?_,
      standsFor hg h hk hmem hlive⟩
    rw [toFsEntry_name, hraw, h83.format_encode]
  · rw [h.image]
    exact hk.clusters

/-- A drive with the catalogue `c`. -/
def Volume.Carries (vol : Volume) (root : List Nat) (c : Catalogue) (d : Drive) : Prop :=
  c.Regular ∧ ∃ img own, vol.Shows d img ∧ vol.Keeps img root own c

theorem Volume.Carries.offers (hg : vol.Geometry) (h : vol.Carries root c d) :
    ∃ entries, vol.Offers d c entries := by
  obtain ⟨hc, img, own, hshows, hk⟩ := h
  exact hk.offers hg hshows hc

/-- The driver refines the catalogue. -/
theorem exec_refines (hg : vol.Geometry) (root : List Nat) :
    Machine.RefinedBy (Catalogue.step vol.clustersNeeded) vol.exec Call.Plain (vol.Carries root) := by
  rintro c d call z c' hcall ⟨hc, img, own, h, hk⟩ hstep
  obtain ⟨rfl, own', hk'⟩ := step_keeps hg hk hc hcall hstep
  obtain ⟨d', he, h'⟩ := h.exec hg hk.toLayout call
  exact ⟨d', he, hc.step hcall hstep, _, own', h', hk'⟩

/-- The file under a name. -/
def Catalogue.fileNamed (c : Catalogue) (name : List UInt8) : Option (List UInt8) :=
  match c.find (encode83Name name) with
  | some ⟨.file content, _⟩ => some content
  | _ => none

theorem fileNamed_eq_some : c.fileNamed name = some content ↔
    ∃ n, c.find (encode83Name name) = some ⟨.file content, n⟩ := by
  unfold Catalogue.fileNamed
  constructor
  · intro h
    split at h
    · next old n hfind =>
      obtain rfl := Option.some.inj h
      exact ⟨n, hfind⟩
    · cases h
  · rintro ⟨n, hfind⟩
    rw [hfind]

/-- A new file for which there is room has its content. -/
theorem fileNamed_create (hnew : c.find (encode83Name name) = none) (hplaces : c.places ≠ 0)
    (hfits : c.Fits need content) :
    ∃ c', c.step need (.create name content) = some (0, c') ∧ c'.fileNamed name = some content := by
  simp only [Catalogue.step, hnew, Catalogue.create, if_neg hplaces, if_pos hfits]
  exact ⟨_, rfl, fileNamed_eq_some.mpr ⟨_, Function.update_self (encode83Name name) _ _⟩⟩

/-- The listing leads to the files of the catalogue and to no others. -/
theorem Volume.Carries.findListed (hg : vol.Geometry) (h : vol.Carries root c d) (hname : Is83 name base ext) :
    ∃ entries, vol.getRootEntries d = some entries ∧
      match c.fileNamed name with
      | none => Volume.findListed name entries = none
      | some content => ∃ f, Volume.findListed name entries = some f ∧ f.fileSize = content.length ∧
          ∀ offset len, len < 2^31 → vol.fileRead d f offset len = some ((content.drop offset).take len) := by
  obtain ⟨hc, img, own, hshows, hk⟩ := h
  refine ⟨_, hshows.getRootEntries hg hk.rootChain hk.ends, ?_⟩
  rw [findListed_eq]
  cases hs : vol.listedSlot img root name with
  | none =>
    have hnone : c.fileNamed name = none := by
      rw [Option.eq_none_iff_forall_ne_some]
      intro content hfile
      obtain ⟨n, hfind⟩ := fileNamed_eq_some.mp hfile
      obtain ⟨t, ht, -, hholding⟩ := hk.lookup_some hfind
      have hfile := holding_file hholding
      rw [listedSlot_eq hk hc hname ht hfile.1] at hs
      cases hs
    rw [hnone]
    rfl
  | some t =>
    obtain ⟨hmem, hlive, hfile⟩ := listedSlot_spec hs
    have hshown : (img.entry t).shown = name.map upper := by
      have ht := List.find?_some hs
      rw [Bool.and_eq_true] at ht
      exact (sameName_iff _ _).mp ht.2
    have hraw := (shown_iff hk hc hname hmem hlive).mp hshown
    have hfind := hk.find ⟨hmem, hlive, hraw⟩
    have hholding : vol.holding img own t =
        ⟨.file (vol.content img (own t) (img.entry t).fileSize), (own t).length⟩ := by
      unfold Volume.holding
      rw [hfile]
      rfl
    rw [hholding] at hfind
    rw [fileNamed_eq_some.mpr ⟨_, hfind⟩]
    refine ⟨(img.entry t).toFile, rfl, (hk.sized t hmem hlive hfile).symm, fun offset len hlen => ?_⟩
    exact (hk.owned t hmem hlive).fileRead hg hshows hfile (by omega)

/-- On a volume in order, every list of calls with plain names that the catalogue
answers is answered by the driver in the same way, failures included, and the drive
then offers the catalogue's last state. -/
theorem calls_follow_catalogue (hg : vol.Geometry) (h : vol.Shows d img) (hl : vol.Layout img root own)
    (hd : vol.Distinct img root) (hs : vol.Sized img root own)
    (hc : (vol.catalogue img root own).Regular) {calls : List Call} {answers : List Int}
    (hcalls : ∀ call ∈ calls, call.Plain)
    (hrun : Machine.run (Catalogue.step vol.clustersNeeded) (vol.catalogue img root own) calls =
      some (answers, c)) :
    ∃ d' entries, Machine.run vol.exec d calls = some (answers, d') ∧ vol.Offers d' c entries := by
  have hcarries : vol.Carries root (vol.catalogue img root own) d := ⟨hc, img, own, h, hl, hd, hs, rfl⟩
  obtain ⟨d', hrun', hc'⟩ := (exec_refines hg root).run hcalls hcarries hrun
  obtain ⟨entries, hoffers⟩ := hc'.offers hg
  exact ⟨d', entries, hrun', hoffers⟩

theorem small_names_distinct : smallVolume.Distinct (smallVolume.image smallDrive) [2] :=
  fun t ht u hu hlt hlu _ => (small_only t ht hlt).trans (small_only u hu hlu).symm

theorem small_sized : smallVolume.Sized (smallVolume.image smallDrive) [2] smallOwn := by
  intro t ht hlive _
  obtain rfl := small_only t ht hlive
  decide +kernel

theorem small_regular : (smallVolume.catalogue (smallVolume.image smallDrive) [2] smallOwn).Regular := by
  intro raw h hfind
  obtain ⟨t, ⟨hmem, hlive, rfl⟩, -⟩ := (find_iff small_names_distinct).mp hfind
  obtain rfl := small_only t hmem hlive
  exact ⟨[65], [65], [], small_name, by decide +kernel⟩

/-- A new file, one for which the clusters run out, the old file deleted, and a directory. -/
theorem calls_follow_catalogue_small :
    ∃ d' c entries, Machine.run smallVolume.exec smallDrive
        [.create [66] [1, 2, 3], .create [67] [4], .delete [65], .mkdir [68]] = some ([0, -1, 0, 0], d') ∧
      smallVolume.Offers d' c entries := by
  have hplain : ∀ call ∈ [Call.create [66] [1, 2, 3], .create [67] [4], .delete [65], .mkdir [68]],
    call.Plain := by
    have hname : ∀ b ∈ [66, 67, 65, 68], Is83 [b] [b] [] := fun b hb =>
      ⟨by simp, by simp, by simp, by revert b; simp [NameChar], by simp, rfl⟩
    simp only [List.mem_cons, List.not_mem_nil, or_false]
    rintro call (rfl | rfl | rfl | rfl) <;> exact ⟨⟨_, _, hname _ (by simp)⟩, by decide⟩
  have hanswers : (Machine.run (Catalogue.step smallVolume.clustersNeeded)
      (smallVolume.catalogue (smallVolume.image smallDrive) [2] smallOwn)
      [.create [66] [1, 2, 3], .create [67] [4], .delete [65], .mkdir [68]]).map Prod.fst =
        some [0, -1, 0, 0] := by
    decide +kernel
  obtain ⟨⟨answers, c⟩, hrun, rfl⟩ := Option.map_eq_some_iff.mp hanswers
  obtain ⟨d', entries, he, hoffers⟩ :=
    calls_follow_catalogue small_geometry small_shows small_layout small_names_distinct
    small_sized small_regular hplain hrun
  exact ⟨d', c, entries, he, hoffers⟩

end GeckoOS.Fs.Fat32
