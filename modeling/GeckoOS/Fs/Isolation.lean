import GeckoOS.Fs.Append
import GeckoOS.Lib.Machines

/-! Calls that name one file leave every other entry of the root directory, its
clusters and its content alone. -/
namespace GeckoOS.Fs.Fat32
open Lib

/-- A call that changes the volume. -/
inductive Call where
  | create (name content : List UInt8)
  | write (name content : List UInt8)
  | delete (name : List UInt8)
  | append (name content : List UInt8)
  | mkdir (name : List UInt8)

def Call.name : Call → List UInt8
  | .create name _ | .write name _ | .delete name | .append name _ | .mkdir name => name

namespace Volume
variable (vol : Volume)

def exec (d : Drive) : Call → Option (Int × Drive)
  | .create name content => vol.createFile d name content
  | .write name content => vol.writeFile d name content
  | .delete name => vol.deleteFile d name
  | .append name content => vol.appendFile d name content
  | .mkdir name => vol.mkdir d name

/-- The result of a call and the image after it. -/
def onImage (img : Image) (root : List Nat) (own : Slot → List Nat) : Call → Int × Image
  | .create name content => vol.createImage img root (encode83Name name) content
  | .write name content => vol.writeImage img root own (encode83Name name) content
  | .delete name => vol.deleteImage img root own (encode83Name name)
  | .append name content => vol.appendImage img root own name content
  | .mkdir name => vol.mkdirImage img root (encode83Name name)

/-- Every live entry of another name is as before, and so are its clusters. -/
structure Spares (img img' : Image) (root : List Nat) (own : Slot → List Nat) (raw : RawName) : Prop where
  rootFat : ∀ c ∈ root, img'.fat c = img.fat c
  entry : ∀ u ∈ vol.slots root, (img.entry u).isLive → (img.entry u).rawName ≠ raw → img'.entry u = img.entry u
  fat : ∀ u ∈ vol.slots root, (img.entry u).isLive → (img.entry u).rawName ≠ raw →
    ∀ c ∈ own u, img'.fat c = img.fat c
  data : ∀ u ∈ vol.slots root, (img.entry u).isLive → (img.entry u).rawName ≠ raw →
    ∀ c ∈ own u, img'.data c = img.data c

end Volume

variable {vol : Volume} {d : Drive} {img img' img₁ : Image} {root : List Nat}
  {own own₁ : Slot → List Nat} {t u : Slot}
  {raw : RawName} {name content : List UInt8}

/-- Every call returns, and does on the drive what it does on the image. -/
theorem Volume.Shows.exec (hg : vol.Geometry) (h : vol.Shows d img) (hl : vol.Layout img root own)
    (call : Call) :
    ∃ d', vol.exec d call = some ((vol.onImage img root own call).1, d') ∧
      vol.Shows d' (vol.onImage img root own call).2 := by
  cases call with
  | create name content => exact h.createFile hg hl name content
  | write name content => exact h.writeFile hg hl name content
  | delete name => exact h.deleteFile hg hl name
  | append name content => exact h.appendFile hg hl name content
  | mkdir name => exact h.mkdir hg hl name

namespace Volume.Spares

theorem refl (img : Image) (root : List Nat) (own : Slot → List Nat) (raw : RawName) :
    vol.Spares img img root own raw :=
  ⟨fun _ _ => rfl, fun _ _ _ _ => rfl, fun _ _ _ _ _ _ => rfl, fun _ _ _ _ _ _ => rfl⟩

/-- A change at a slot that is not live or has the name. -/
theorem of_frame (hf : vol.Frame img img' root own t)
    (ht : (img.entry t).isLive → (img.entry t).rawName = raw) :
    vol.Spares img img' root own raw := by
  have hne : ∀ u, (img.entry u).isLive → (img.entry u).rawName ≠ raw → u ≠ t := by
    intro u hlive hraw he
    subst he
    exact hraw (ht hlive)
  exact ⟨hf.rootFat, fun u hu hlive hraw => hf.entry u hu (hne u hlive hraw),
    fun u hu hlive hraw => hf.fat u hu hlive (hne u hlive hraw),
    fun u hu hlive hraw => hf.data u hu hlive (hne u hlive hraw)⟩

theorem trans (h : vol.Spares img img₁ root own raw) (h' : vol.Spares img₁ img' root own₁ raw)
    (hown : ∀ u ∈ vol.slots root, (img.entry u).isLive → (img.entry u).rawName ≠ raw → own₁ u = own u) :
    vol.Spares img img' root own raw := by
  constructor
  · intro c hc
    rw [h'.rootFat c hc, h.rootFat c hc]
  · intro u hu hlive hraw
    have he := h.entry u hu hlive hraw
    rw [h'.entry u hu (he ▸ hlive) (he ▸ hraw), he]
  · intro u hu hlive hraw c hc
    have he := h.entry u hu hlive hraw
    rw [h'.fat u hu (he ▸ hlive) (he ▸ hraw) c (hown u hu hlive hraw ▸ hc), h.fat u hu hlive hraw c hc]
  · intro u hu hlive hraw c hc
    have he := h.entry u hu hlive hraw
    rw [h'.data u hu (he ▸ hlive) (he ▸ hraw) c (hown u hu hlive hraw ▸ hc), h.data u hu hlive hraw c hc]

end Volume.Spares

/-- A free slot is not live. -/
theorem freeSlot_not_live (h : vol.freeSlot img root = some t) : (img.entry t).isLive = false := by
  rcases (freeSlot_spec h).2 with hf | hf <;> simp [DirEntry.isLive, hf]

section
variable (hg : vol.Geometry) (hl : vol.Layout img root own)
include hg hl

private theorem create_spares (raw : RawName) (content : List UInt8) :
    vol.Spares img (vol.createImage img root raw content).2 root own raw := by
  unfold Volume.createImage
  cases ht : vol.freeSlot img root with
  | none => exact .refl ..
  | some t =>
    have hf := (Volume.Frame.refl img root own t).storeAt hl hg (freeSlot_spec ht).1 content fun first =>
      newEntry raw attrArchive today first (content.length % 2^32)
    exact .of_frame hf fun hlive => by simp [freeSlot_not_live ht] at hlive

omit hg in
private theorem mkdir_spares (raw : RawName) : vol.Spares img (vol.mkdirImage img root raw).2 root own raw := by
  unfold Volume.mkdirImage
  cases ht : vol.freeSlot img root with
  | none => exact .refl ..
  | some t =>
    have hf := (Volume.Frame.refl img root own t).setEntry hl (freeSlot_spec ht).1
      (newEntry raw attrDirectory 0 0 0)
    exact .of_frame hf fun hlive => by simp [freeSlot_not_live ht] at hlive

private theorem write_spares (raw : RawName) (content : List UInt8) :
    vol.Spares img (vol.writeImage img root own raw content).2 root own raw := by
  unfold Volume.writeImage
  cases ht : vol.lookup img root raw with
  | none => exact create_spares hg hl raw content
  | some t =>
    obtain ⟨hmem, hlive, hraw⟩ := lookup_spec ht
    have hf := (Volume.Frame.release hl hmem hlive).storeAt hl hg hmem content fun first =>
      (img.entry t).rewrite first (content.length % 2^32)
    exact .of_frame hf fun _ => hraw

omit hg in
private theorem delete_spares (raw : RawName) :
    vol.Spares img (vol.deleteImage img root own raw).2 root own raw := by
  unfold Volume.deleteImage
  cases ht : vol.lookup img root raw with
  | none => exact .refl ..
  | some t =>
    obtain ⟨hmem, hlive, hraw⟩ := lookup_spec ht
    exact .of_frame (hl.deleted hmem hlive).1 fun _ => hraw

private theorem append_spares (name content : List UInt8) :
    vol.Spares img (vol.appendImage img root own name content).2 root own (encode83Name name) := by
  have hcreate := create_spares hg (hl.appendBase name) (encode83Name name)
    (vol.appendContent img root own name content)
  have hbase : vol.Spares img (vol.appendBase img root own name) root own (encode83Name name) := by
    unfold Volume.appendBase
    cases vol.listedSlot img root name with
    | none => exact .refl ..
    | some u => exact delete_spares hl _
  refine hbase.trans hcreate fun u hu hlive hraw => ?_
  unfold Volume.appendOwn Volume.deleteOwn
  cases vol.listedSlot img root name with
  | none => rfl
  | some v =>
    cases ht : vol.lookup img root (encode83Name name) with
    | none => rfl
    | some t =>
      have hut : u ≠ t := fun he => hraw (he ▸ (lookup_spec ht).2.2)
      exact Function.update_of_ne hut _ _

/-- No call touches the entry or the clusters of another name. -/
theorem call_spares (call : Call) :
    vol.Spares img (vol.onImage img root own call).2 root own (encode83Name call.name) := by
  cases call with
  | create name content => exact create_spares hg hl _ content
  | write name content => exact write_spares hg hl _ content
  | delete name => exact delete_spares hl _
  | append name content => exact append_spares hg hl name content
  | mkdir name => exact mkdir_spares hl _

end

/-- A volume of 126 clusters with one file, A, that holds five bytes; cluster 4 is
the only free one. -/
def smallVolume : Volume := ⟨512, 1, 2, 0, 2, 2, 1, by decide⟩

def smallFat : View := fun i => if i / 4 = 4 then 0 else [0xF8, 0xFF, 0xFF, 0x0F].getD (i % 4) 0

def smallDrive : Drive where
  sectors lba :=
    if lba < 2 then smallFat
    else if lba = 2 then storeEntry (fun _ => 0) 0 (newEntry (encode83Name [65]) attrArchive today 3 5)
    else if lba = 3 then pad [104, 101, 108, 108, 111] 0
    else fun _ => 0
  readFails _ := false
  writeFails _ := false

def smallSlot : Slot := ⟨2, 0, 0⟩
def smallOwn : Slot → List Nat := Function.update (fun _ => []) smallSlot [3]

theorem small_geometry : smallVolume.Geometry where
  bytes := rfl
  cluster := by decide
  fats := .inr rfl
  entries := by decide
  apart := by decide
  lba := by
    rintro c s ⟨-, hc, hs⟩
    change c < 128 at hc
    change s < 1 at hs
    change 2 + (c - 2) * 1 + s < 2^32
    omega

theorem small_shows : smallVolume.Shows smallDrive (smallVolume.image smallDrive) :=
  ⟨fun _ => rfl, fun _ => rfl, rfl⟩

theorem small_live : ((smallVolume.image smallDrive).entry smallSlot).isLive := by decide +kernel

theorem small_only : ∀ t ∈ smallVolume.slots [2],
    ((smallVolume.image smallDrive).entry t).isLive → t = smallSlot := by decide +kernel

theorem small_layout : smallVolume.Layout (smallVolume.image smallDrive) [2] smallOwn where
  rootChain := ⟨⟨rfl, by decide, by change clusterEoc ≤ _; decide +kernel⟩, by decide⟩
  ends := by unfold Volume.EndsOnce; decide +kernel
  owned := by
    intro t ht hlive
    obtain rfl := small_only t ht hlive
    rw [smallOwn, Function.update_self]
    refine .inr ⟨by simp, ⟨?_, by decide⟩⟩
    have hfirst : ((smallVolume.image smallDrive).entry smallSlot).cluster = 3 := by decide +kernel
    rw [hfirst]
    exact ⟨rfl, by decide, by change clusterEoc ≤ _; decide +kernel⟩
  apartRoot := by
    intro t ht hlive
    obtain rfl := small_only t ht hlive
    rw [smallOwn, Function.update_self]
    simp
  apart := by
    intro t ht u hu hlt hlu htu
    exact absurd ((small_only t ht hlt).trans (small_only u hu hlu).symm) htu

/-- A new file, another content for it, and the old file deleted. -/
def smallCalls : List Call := [.create [66] [1, 2, 3], .write [66] [4, 5], .delete [65]]

theorem small_run : ∃ d', Machine.run smallVolume.exec smallDrive smallCalls = some ([0, 0, 0], d') := by
  have hanswers : (Machine.run smallVolume.exec smallDrive smallCalls).map Prod.fst = some [0, 0, 0] := by
    decide +kernel
  obtain ⟨⟨answers, d'⟩, hrun, rfl⟩ := Option.map_eq_some_iff.mp hanswers
  exact ⟨d', hrun⟩

/-- Whether it succeeds or runs out of space, a call leaves every live entry of
another name in its slot, with the same chain and the same content. -/
theorem other_files_untouched (hg : vol.Geometry) (h : vol.Shows d img) (hl : vol.Layout img root own)
    (call : Call) :
    ∃ r d' img', vol.exec d call = some (r, d') ∧ vol.Shows d' img' ∧
      vol.Chain img'.fat vol.rootCluster root ∧
      ∀ u ∈ vol.slots root, (img.entry u).isLive → (img.entry u).rawName ≠ encode83Name call.name →
        img'.entry u = img.entry u ∧ vol.Owns img'.fat (img'.entry u) (own u) ∧
        (∀ c ∈ own u, img'.data c = img.data c) ∧
        ((img.entry u).isDirectory = false → ∀ offset len, min len ((img.entry u).fileSize - offset) < 2^31 →
          vol.fileRead d' (img.entry u).toFile offset len =
          vol.fileRead d (img.entry u).toFile offset len) := by
  obtain ⟨d', he, h'⟩ := h.exec hg hl call
  have hs := call_spares hg hl call
  refine ⟨_, d', _, he, h', hl.rootChain.congr hs.rootFat, fun u hu hlive hraw => ?_⟩
  have hentry := hs.entry u hu hlive hraw
  have howns := (hl.owned u hu hlive).congr (hs.fat u hu hlive hraw)
  have hdata := hs.data u hu hlive hraw
  refine ⟨hentry, hentry.symm ▸ howns, hdata, fun hfile offset len hlen => ?_⟩
  rw [howns.fileRead hg h' hfile hlen, (hl.owned u hu hlive).fileRead hg h hfile hlen, content_congr hdata]

end GeckoOS.Fs.Fat32
