import GeckoOS.Fs.Atomicity
import GeckoOS.Fs.RoundTrip
import GeckoOS.Lib.Machines

/-! What the calls are for: a catalogue of names with files and directories, with
so many places for entries and so many free clusters. The catalogue that a
volume stands for, and how it changes with one slot. -/
namespace GeckoOS.Fs.Fat32
open Lib

/-- What a name stands for. -/
inductive Object where
  | file (content : List UInt8)
  | directory

/-- An object and the number of its clusters. -/
structure Holding where
  object : Object
  clusters : Nat

@[ext] structure Catalogue where
  find : RawName → Option Holding
  places : Nat
  clusters : Nat

/-- A directory that is written to stays one. -/
def Object.rewrite (content : List UInt8) : Object → Object
  | .file _ => .file content
  | .directory => .directory

namespace Catalogue
variable (need : Nat → Nat) (c : Catalogue) (raw : RawName)

/-- An object for `len` bytes, on fewer clusters than they need only if it is empty. -/
def store (object : Object) (len : Nat) : Catalogue where
  find := Function.update c.find raw (some ⟨object, min (need len) c.clusters⟩)
  places := c.places
  clusters := c.clusters - need len

def Fits (content : List UInt8) : Prop := content = [] ∨ need content.length ≤ c.clusters

instance (content : List UInt8) : Decidable (c.Fits need content) := inferInstanceAs (Decidable (_ ∨ _))

/-- A new file. If the clusters run out, all of them are lost. -/
def create (content : List UInt8) : Int × Catalogue :=
  if c.places = 0 then (-1, c)
  else if c.Fits need content then
    (0, { c.store need raw (.file content) content.length with places := c.places - 1 })
  else (-1, { c with clusters := 0 })

def release (h : Holding) : Catalogue := { c with clusters := c.clusters + h.clusters }

def remove (h : Holding) : Catalogue where
  find := Function.update c.find raw none
  places := c.places + 1
  clusters := c.clusters + h.clusters

/-- The answer to a call and the catalogue after it. Nothing is said of a new file or
directory under a name that is in use, of text for a directory, and of content
for which there is no room in place of the old one. -/
def step (c : Catalogue) : Call → Option (Int × Catalogue)
  | .create name content =>
    match c.find (encode83Name name) with
    | none => some (c.create need (encode83Name name) content)
    | some _ => none
  | .write name content =>
    match c.find (encode83Name name) with
    | none => some (c.create need (encode83Name name) content)
    | some h =>
      if (c.release h).Fits need content then
        some (0, (c.release h).store need (encode83Name name) (h.object.rewrite content) content.length)
      else none
  | .delete name =>
    match c.find (encode83Name name) with
    | none => some (-1, c)
    | some h => some (0, c.remove (encode83Name name) h)
  | .append name content =>
    match c.find (encode83Name name) with
    | none => some (c.create need (encode83Name name) (Volume.appendBuf [] content))
    | some ⟨.directory, _⟩ => none
    | some ⟨.file old, n⟩ =>
      some ((c.remove (encode83Name name) ⟨.file old, n⟩).create need (encode83Name name)
        (Volume.appendBuf (old.take 4000) content))
  | .mkdir name =>
    match c.find (encode83Name name) with
    | some _ => none
    | none =>
      if c.places = 0 then some (-1, c)
      else some (0, { c with
        find := Function.update c.find (encode83Name name) (some ⟨.directory, 0⟩)
        places := c.places - 1 })

end Catalogue

namespace Volume
variable (vol : Volume)

/-- The object in a slot. -/
def holding (img : Image) (own : Slot → List Nat) (t : Slot) : Holding where
  object := if (img.entry t).isDirectory then .directory else .file
    (vol.content img (own t) (img.entry t).fileSize)
  clusters := (own t).length

/-- The catalogue that an image stands for. -/
def catalogue (img : Image) (root : List Nat) (own : Slot → List Nat) : Catalogue where
  find raw := (vol.lookup img root raw).map (vol.holding img own)
  places := (vol.slots root).countP fun t => (img.entry t).isFree || (img.entry t).isEnd
  clusters := (vol.freeClusters img.fat).length

/-- The chains of the files are long enough for their sizes. -/
def Sized (img : Image) (root : List Nat) (own : Slot → List Nat) : Prop :=
  ∀ t ∈ vol.slots root, (img.entry t).isLive → (img.entry t).isDirectory = false →
    (vol.content img (own t) (img.entry t).fileSize).length = (img.entry t).fileSize

/-- The slot has a live entry of this name. -/
def Named (img : Image) (root : List Nat) (raw : RawName) (t : Slot) : Prop :=
  t ∈ vol.slots root ∧ (img.entry t).isLive ∧ (img.entry t).rawName = raw

end Volume

variable {vol : Volume} {img img' img₁ : Image} {root l : List Nat} {own : Slot → List Nat} {t u : Slot}
  {raw raw' : RawName} {name content : List UInt8} {h : Holding}

theorem lookup_iff (hd : vol.Distinct img root) : vol.lookup img root raw = some t ↔
    vol.Named img root raw t := by
  constructor
  · exact lookup_spec
  · rintro ⟨ht, hlive, hraw⟩
    exact lookup_eq_some ht hlive hraw fun u hu v hv hlu hlv hru hrv =>
      hd u hu v hv hlu hlv (hru.trans hrv.symm)

theorem find_iff (hd : vol.Distinct img root) :
    (vol.catalogue img root own).find raw = some h ↔ ∃ t, vol.Named img root raw t ∧
    vol.holding img own t = h := by
  unfold Volume.catalogue
  rw [Option.map_eq_some_iff]
  simp only [lookup_iff hd]

/-- Two lists of slots that differ in one of them. -/
private theorem countP_change {l : List Slot} {p q : Slot → Bool} (hl : l.Nodup) (ht : t ∈ l)
    (h : ∀ u ∈ l, u ≠ t → p u = q u) : l.countP p + (q t).toNat = l.countP q + (p t).toNat := by
  have hperm := List.perm_cons_erase ht
  have hrest : (l.erase t).countP p = (l.erase t).countP q := by
    apply List.countP_congr
    intro u hu
    obtain ⟨hut, hmem⟩ := hl.mem_erase_iff.mp hu
    rw [h u hmem hut]
  rw [hperm.countP_eq p, hperm.countP_eq q, List.countP_cons, List.countP_cons, hrest]
  cases p t <;> cases q t <;> simp

/-- A slot that a new entry can take counts as a place. -/
theorem places_change (hroot : root.Nodup) (hf : vol.Frame img img' root own t) (ht : t ∈ vol.slots root) :
    (vol.catalogue img' root (Function.update own t l)).places +
        ((img.entry t).isFree || (img.entry t).isEnd).toNat =
      (vol.catalogue img root own).places + ((img'.entry t).isFree || (img'.entry t).isEnd).toNat := by
  refine countP_change (p := fun u => (img'.entry u).isFree || (img'.entry u).isEnd)
    (q := fun u => (img.entry u).isFree || (img.entry u).isEnd) (slots_nodup hroot) ht fun u hu hut => ?_
  rw [hf.entry u hu hut]

theorem not_spare_of_live {e : DirEntry} (h : e.isLive) : (e.isFree || e.isEnd) = false := by
  rw [DirEntry.isLive, Bool.and_eq_true, Bool.and_eq_true, Bool.not_eq_true', Bool.not_eq_true'] at h
  rw [h.1.1, h.1.2]
  rfl

theorem places_eq_zero : (vol.catalogue img root own).places = 0 ↔ vol.freeSlot img root = none := by
  unfold Volume.catalogue Volume.freeSlot
  rw [List.countP_eq_zero, List.find?_eq_none]

section change
variable (hf : vol.Frame img img' root own t)
include hf

/-- The other slots have the names and the objects that they had. -/
private theorem named_iff (hut : u ≠ t) : vol.Named img' root raw u ↔ vol.Named img root raw u := by
  unfold Volume.Named
  refine and_congr_right fun hu => ?_
  rw [hf.entry u hu hut]

private theorem holding_eq (hu : vol.Named img root raw u) (hut : u ≠ t) :
    vol.holding img' (Function.update own t l) u = vol.holding img own u := by
  obtain ⟨hmem, hlive, -⟩ := hu
  unfold Volume.holding
  rw [hf.entry u hmem hut, Function.update_of_ne hut, content_congr (hf.data u hmem hlive hut)]

theorem sized_change (hs : vol.Sized img root own) (hnew : (img'.entry t).isLive →
    (img'.entry t).isDirectory = false →
    (vol.content img' l (img'.entry t).fileSize).length = (img'.entry t).fileSize) :
    vol.Sized img' root (Function.update own t l) := by
  intro u hu hlive hfile
  by_cases hut : u = t
  · subst hut
    rw [Function.update_self]
    exact hnew hlive hfile
  · rw [Function.update_of_ne hut]
    rw [hf.entry u hu hut] at hlive hfile ⊢
    rw [content_congr (hf.data u hu hlive hut)]
    exact hs u hu hlive hfile

private theorem find_iff_of_ne (hd : vol.Distinct img root) (hd' : vol.Distinct img' root)
    (hold : ∀ u, vol.Named img root raw u → u ≠ t) (hnew : ∀ u, vol.Named img' root raw u → u ≠ t) :
    (vol.catalogue img' root (Function.update own t l)).find raw = (vol.catalogue img root own).find raw := by
  ext h
  rw [find_iff hd, find_iff hd']
  constructor
  · rintro ⟨u, hu, rfl⟩
    have hu' := (named_iff hf (hnew u hu)).mp hu
    exact ⟨u, hu', (holding_eq hf hu' (hnew u hu)).symm⟩
  · rintro ⟨u, hu, rfl⟩
    exact ⟨u, (named_iff hf (hold u hu)).mpr hu, holding_eq hf hu (hold u hu)⟩

/-- An entry that has the name alone. -/
theorem find_put (hd : vol.Distinct img root) (ht : vol.Named img' root raw t)
    (hold : ∀ u, vol.Named img root raw u → u = t) (hwas : (img.entry t).isLive → (img.entry t).rawName = raw) :
    vol.Distinct img' root ∧ (vol.catalogue img' root (Function.update own t l)).find =
      Function.update (vol.catalogue img root own).find raw
        (some (vol.holding img' (Function.update own t l) t)) := by
  obtain ⟨hmem, hlive, hraw⟩ := ht
  have hother : ∀ {raw' u}, vol.Named img' root raw' u → u ≠ t → raw' ≠ raw := by
    rintro raw' u hu hut rfl
    exact hut (hold u ((named_iff hf hut).mp hu))
  have hd' : vol.Distinct img' root := by
    intro u hu v hv hlu hlv heq
    by_cases hut : u = t
    · by_cases hvt : v = t
      · rw [hut, hvt]
      · subst hut
        exact absurd (heq.symm.trans hraw) (hother ⟨hv, hlv, rfl⟩ hvt)
    · by_cases hvt : v = t
      · subst hvt
        exact absurd (heq.trans hraw) (hother ⟨hu, hlu, rfl⟩ hut)
      · rw [hf.entry u hu hut] at hlu heq
        rw [hf.entry v hv hvt] at hlv heq
        exact hd u hu v hv hlu hlv heq
  refine ⟨hd', ?_⟩
  funext raw'
  by_cases hr : raw' = raw
  · subst hr
    rw [Function.update_self]
    exact (find_iff hd').mpr ⟨t, ⟨hmem, hlive, hraw⟩, rfl⟩
  · rw [Function.update_of_ne hr]
    apply find_iff_of_ne hf hd hd'
    · rintro u ⟨-, hlu, hru⟩ rfl
      exact hr (hru.symm.trans (hwas hlu))
    · rintro u ⟨-, -, hru⟩ rfl
      exact hr (hru.symm.trans hraw)

section dead
variable (hd : vol.Distinct img root) (hdead : (img'.entry t).isLive = false)

omit hf in
private theorem named_ne (hdead : (img'.entry t).isLive = false) (hu : vol.Named img' root raw u) : u ≠ t := by
  obtain ⟨-, hlive, -⟩ := hu
  rintro rfl
  rw [hdead] at hlive
  cases hlive

include hd hdead

private theorem distinct_dead : vol.Distinct img' root := by
  intro u hu v hv hlu hlv heq
  have hut : u ≠ t := named_ne hdead ⟨hu, hlu, rfl⟩
  have hvt : v ≠ t := named_ne hdead ⟨hv, hlv, rfl⟩
  rw [hf.entry u hu hut] at hlu heq
  rw [hf.entry v hv hvt] at hlv heq
  exact hd u hu v hv hlu hlv heq

/-- An entry that is gone. -/
theorem find_remove (ht : vol.Named img root raw t) :
    vol.Distinct img' root ∧ (vol.catalogue img' root (Function.update own t l)).find =
      Function.update (vol.catalogue img root own).find raw none := by
  obtain ⟨hmem, hlive, hraw⟩ := ht
  have hd' := distinct_dead hf hd hdead
  refine ⟨hd', funext fun raw' => ?_⟩
  by_cases hr : raw' = raw
  · subst hr
    rw [Function.update_self, Option.eq_none_iff_forall_ne_some]
    intro h hfind
    obtain ⟨u, hu, -⟩ := (find_iff hd').mp hfind
    obtain ⟨hmemu, hliveu, hrawu⟩ := (named_iff hf (named_ne hdead hu)).mp hu
    exact named_ne hdead hu (hd u hmemu t hmem hliveu hlive (hrawu.trans hraw.symm))
  · rw [Function.update_of_ne hr]
    apply find_iff_of_ne hf hd hd'
    · rintro u ⟨-, -, hru⟩ rfl
      exact hr (hru.symm.trans hraw)
    · exact fun u hu => named_ne hdead hu

/-- A slot that was not live and still is not. -/
theorem find_keep (hwas : (img.entry t).isLive = false) :
    vol.Distinct img' root ∧
      (vol.catalogue img' root (Function.update own t l)).find = (vol.catalogue img root own).find := by
  have hd' := distinct_dead hf hd hdead
  exact ⟨hd', funext fun raw' => find_iff_of_ne hf hd hd' (fun u hu => named_ne hwas hu) fun u hu =>
    named_ne hdead hu⟩

end dead

end change

end GeckoOS.Fs.Fat32
