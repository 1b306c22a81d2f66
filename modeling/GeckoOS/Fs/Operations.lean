import GeckoOS.Fs.Layout

/-! The operations of the driver as functions on images, and that the code does
the same on a drive that shows the image. -/
namespace GeckoOS.Fs.Fat32
open Lib

namespace Volume
variable (vol : Volume)

/-- The clusters that a content of the given length is put on: too few if they run out. -/
def newChain (fat : Nat → Nat) (len : Nat) : List Nat := (vol.freeClusters fat).take (vol.clustersNeeded len)

/-- Enough clusters are free. -/
def Fits (fat : Nat → Nat) (len : Nat) : Prop := vol.clustersNeeded len ≤ (vol.freeClusters fat).length

instance (fat : Nat → Nat) (len : Nat) : Decidable (vol.Fits fat len) := inferInstanceAs (Decidable (_ ≤ _))

/-- The first cluster of the new chain, 0 if the clusters run out. -/
def newFirst (fat : Nat → Nat) (len : Nat) : Nat :=
  if vol.Fits fat len then (vol.freeClusters fat).headD 0 else 0

/-- The content put on free clusters and, unless they run out, the entry into the slot. -/
def storeAt (img : Image) (t : Slot) (content : List UInt8) (entry : Nat → DirEntry) : Int × Image :=
  let first := vol.newFirst img.fat content.length
  let img' := vol.place img (vol.newChain img.fat content.length) content
  if first = 0 ∧ 0 < content.length then (-1, img') else (0, img'.setEntry t (entry first))

def createImage (img : Image) (root : List Nat) (raw : RawName) (content : List UInt8) : Int × Image :=
  match vol.freeSlot img root with
  | none => (-1, img)
  | some t =>
    vol.storeAt img t content fun first => newEntry raw attrArchive today first (content.length % 2^32)

def writeImage (img : Image) (root : List Nat) (own : Slot → List Nat) (raw : RawName) (content : List UInt8) :
    Int × Image :=
  match vol.lookup img root raw with
  | none => vol.createImage img root raw content
  | some t => vol.storeAt (img.release (own t)) t content fun first =>
      (img.entry t).rewrite first (content.length % 2^32)

def deleteImage (img : Image) (root : List Nat) (own : Slot → List Nat) (raw : RawName) : Int × Image :=
  match vol.lookup img root raw with
  | none => (-1, img)
  | some t => (0, (img.release (own t)).setEntry t (img.entry t).deleted)

def mkdirImage (img : Image) (root : List Nat) (raw : RawName) : Int × Image :=
  match vol.freeSlot img root with
  | none => (-1, img)
  | some t => (0, img.setEntry t (newEntry raw attrDirectory 0 0 0))

/-- The slot of the file that `fat32_append_file` finds in the listing. -/
def listedSlot (img : Image) (root : List Nat) (name : List UInt8) : Option Slot :=
  (vol.slots root).find? fun t => (img.entry t).isLive && !(img.entry t).isDirectory &&
    sameName ((format83Name (img.entry t).rawName).takeWhile (· != 0)) name

/-- What `fat32_append_file` writes: at most 4000 bytes of the listed file, then the text. -/
def appendContent (img : Image) (root : List Nat) (own : Slot → List Nat) (name content : List UInt8) :
    List UInt8 :=
  match vol.listedSlot img root name with
  | none => appendBuf [] content
  | some u => appendBuf ((vol.content img (own u) (img.entry u).fileSize).take 4000) content

/-- The image in which `fat32_append_file` creates the file. -/
def appendBase (img : Image) (root : List Nat) (own : Slot → List Nat) (name : List UInt8) : Image :=
  match vol.listedSlot img root name with
  | none => img
  | some _ => (vol.deleteImage img root own (encode83Name name)).2

def appendImage (img : Image) (root : List Nat) (own : Slot → List Nat) (name content : List UInt8) :
    Int × Image :=
  vol.createImage (vol.appendBase img root own name) root (encode83Name name)
    (vol.appendContent img root own name content)

end Volume

variable {vol : Volume} {d : Drive} {img img' : Image} {root l old : List Nat} {own : Slot → List Nat}
  {t u : Slot}
  {c : Nat} {raw : RawName} {name content : List UInt8}

theorem mem_newChain {fat : Nat → Nat} {len : Nat} (hc : c ∈ vol.newChain fat len) :
    2 ≤ c ∧ c < vol.fatEntries ∧ fat c = 0 := mem_freeClusters.mp (List.mem_of_mem_take hc)

theorem newChain_nodup (fat : Nat → Nat) (len : Nat) : (vol.newChain fat len).Nodup :=
  (freeClusters_nodup fat).sublist (List.take_sublist _ _)

theorem newFirst_eq_zero_of_pos {fat : Nat → Nat} {len : Nat} (hpos : 0 < vol.clustersNeeded len) :
    vol.newFirst fat len = 0 ↔ ¬ vol.Fits fat len := by
  by_cases h : vol.Fits fat len
  · rw [Volume.newFirst, if_pos h]
    unfold Volume.Fits at h
    cases hF : vol.freeClusters fat with
    | nil =>
      rw [hF, List.length_nil] at h
      omega
    | cons x xs =>
      have hx := mem_freeClusters.mp (hF ▸ List.mem_cons_self : x ∈ vol.freeClusters fat)
      rw [hF] at h
      simp only [List.headD_cons, Volume.Fits, hF, h, not_true_eq_false, iff_false]
      omega
  · rw [Volume.newFirst, if_neg h]
    simp [h]

theorem newFirst_eq_zero (hg : vol.Geometry) {fat : Nat → Nat} {len : Nat} :
    vol.newFirst fat len = 0 ↔ ¬ vol.Fits fat len :=
  newFirst_eq_zero_of_pos (clustersNeeded_pos hg len)

theorem newFirst_lt (hg : vol.Geometry) (fat : Nat → Nat) (len : Nat) : vol.newFirst fat len < 2^32 := by
  have hent := hg.entries
  unfold clusterBad at hent
  unfold Volume.newFirst
  split
  · cases hF : vol.freeClusters fat with
    | nil => exact Nat.two_pow_pos 32
    | cons x xs =>
      have hx := mem_freeClusters.mp (hF ▸ List.mem_cons_self : x ∈ vol.freeClusters fat)
      rw [List.headD_cons]
      omega
  · exact Nat.two_pow_pos 32

/-- A content is stored unless it is not empty and the clusters run out. -/
theorem storeAt_result (hg : vol.Geometry) (img : Image) (t : Slot) (content : List UInt8)
    (entry : Nat → DirEntry) :
    ((content = [] ∨ vol.Fits img.fat content.length) ∧
      vol.storeAt img t content entry = (0,
        (vol.place img (vol.newChain img.fat content.length) content).setEntry t
        (entry (vol.newFirst img.fat content.length)))) ∨
    (content ≠ [] ∧ ¬ vol.Fits img.fat content.length ∧
      vol.storeAt img t content entry = (-1, vol.place img (vol.newChain img.fat content.length) content)) := by
  have hz : vol.newFirst img.fat content.length = 0 ↔ _ := newFirst_eq_zero hg
  by_cases h : vol.newFirst img.fat content.length = 0 ∧ 0 < content.length
  · exact .inr ⟨List.length_pos_iff.mp h.2, hz.mp h.1, if_pos h⟩
  · refine .inl ⟨?_, if_neg h⟩
    rw [hz, List.length_pos_iff] at h
    tauto

/-- The stored chain is the entry's own. -/
theorem placed_chain (hg : vol.Geometry) {fat : Nat → Nat} {len : Nat} (hs : len = 0 ∨ vol.Fits fat len) :
    (vol.newFirst fat len = 0 ∧ vol.newChain fat len = [] ∧ len = 0) ∨
      (vol.newChain fat len ≠ [] ∧ (vol.newChain fat len).length = vol.clustersNeeded len ∧
        vol.Chain (relink fat clusterEoc (vol.newChain fat len)) (vol.newFirst fat len)
        (vol.newChain fat len)) := by
  have hpos := clustersNeeded_pos hg len
  by_cases hfit : vol.Fits fat len
  · right
    have hlen : (vol.newChain fat len).length = vol.clustersNeeded len := by
      rw [Volume.newChain, List.length_take]
      exact Nat.min_eq_left hfit
    have hpos' : 0 < (vol.newChain fat len).length := by omega
    have hchain : vol.Chain (relink fat clusterEoc _) _ _ :=
      chain_relink hg (newChain_nodup fat len) (fun c hc => ⟨(mem_newChain hc).1, (mem_newChain hc).2.1⟩) hpos'
    have hfirst : (vol.newChain fat len)[0] = vol.newFirst fat len := by
      rw [Volume.newFirst, if_pos hfit, ← List.head_eq_getElem (List.length_pos_iff.mp hpos')]
      simp only [Volume.newChain, List.head_take]
      rw [List.headD_eq_head?_getD, List.head?_eq_some_head, Option.getD_some]
    rw [hfirst, List.drop_zero] at hchain
    exact ⟨List.length_pos_iff.mp hpos', hlen, hchain⟩
  · left
    have hz : len = 0 := hs.resolve_right hfit
    have hnone : vol.freeClusters fat = [] := by
      rw [← List.length_eq_zero_iff]
      unfold Volume.Fits Volume.clustersNeeded at hfit
      rw [if_pos hz] at hfit
      omega
    exact ⟨(newFirst_eq_zero hg).mpr hfit, by simp [Volume.newChain, hnone], hz⟩

namespace Volume.Shows
variable (hg : vol.Geometry) (h : vol.Shows d img) (hl : vol.Layout img root own)
include hg

/-- The part that `fat32_create_file` and `fat32_write_file` have in common. -/
private theorem storeAt (h : vol.Shows d img) (ht : vol.InData t.cluster t.sector) (content : List UInt8)
    (entry : Nat → DirEntry) :
    ∃ d', (let (first, d) := vol.writeClusterChain d content
      if first = 0 ∧ 0 < content.length then some (-1, d)
      else some (d.writeDirEntry (vol.slotLba t) t.idx (entry first))) =
        some ((vol.storeAt img t content entry).1, d') ∧
      vol.Shows d' (vol.storeAt img t content entry).2 := by
  obtain ⟨d1, he, hs⟩ := h.writeClusterChain hg content
  rw [he]
  change ∃ d', (if vol.newFirst img.fat content.length = 0 ∧ _ then _ else _) = _ ∧ _
  unfold Volume.storeAt
  dsimp only
  split
  · exact ⟨d1, rfl, hs⟩
  · obtain ⟨d2, he2, hs2⟩ := hs.writeDirEntry hg ht (entry (vol.newFirst img.fat content.length))
    exact ⟨d2, congrArg some he2, hs2⟩

include h hl

theorem createFile (name content : List UInt8) :
    ∃ d', vol.createFile d name content =
        some ((vol.createImage img root (encode83Name name) content).1, d') ∧
      vol.Shows d' (vol.createImage img root (encode83Name name) content).2 := by
  unfold Volume.createFile Volume.createImage
  rw [h.search_free hg hl.rootChain]
  cases ht : vol.freeSlot img root with
  | none => exact ⟨d, rfl, h⟩
  | some t =>
    have hin := hl.inData (freeSlot_spec ht).1
    simp only [Option.map_some]
    exact storeAt hg h hin content fun first =>
      newEntry (encode83Name name) attrArchive today first (content.length % 2^32)

theorem mkdir (name : List UInt8) :
    ∃ d', vol.mkdir d name = some ((vol.mkdirImage img root (encode83Name name)).1, d') ∧
      vol.Shows d' (vol.mkdirImage img root (encode83Name name)).2 := by
  unfold Volume.mkdir Volume.mkdirImage
  rw [h.search_free hg hl.rootChain]
  cases ht : vol.freeSlot img root with
  | none => exact ⟨d, rfl, h⟩
  | some t =>
    have hin := hl.inData (freeSlot_spec ht).1
    obtain ⟨d', he, hs⟩ := h.writeDirEntry hg hin (newEntry (encode83Name name) attrDirectory 0 0 0)
    exact ⟨d', congrArg some he, hs⟩

omit hl in
/-- Freeing the clusters of an entry. -/
private theorem freeOwned {e : DirEntry} (ho : vol.Owns img.fat e l) :
    ∃ d', vol.freeClusterChain d chainFuel e.cluster = some d' ∧ vol.Shows d' (img.release l) := by
  rcases ho with ⟨hz, rfl, -⟩ | ⟨-, hc⟩
  · refine ⟨d, ?_, by simpa [Image.release] using h⟩
    rw [hz]
    exact freeClusterChain_none (by decide)
  · exact h.freeClusterChain hg hc

theorem writeFile (name content : List UInt8) :
    ∃ d', vol.writeFile d name content =
        some ((vol.writeImage img root own (encode83Name name) content).1, d') ∧
      vol.Shows d' (vol.writeImage img root own (encode83Name name) content).2 := by
  have hsearch := h.search_match hg hl.rootChain hl.ends (encode83Name name)
  unfold Volume.writeFile Volume.writeImage
  cases ht : vol.lookup img root (encode83Name name) with
  | none =>
    rw [hsearch, ht]
    exact h.createFile hg hl name content
  | some t =>
    obtain ⟨hmem, hlive, -⟩ := lookup_spec ht
    obtain ⟨d1, he, hs⟩ := freeOwned hg h (hl.owned t hmem hlive)
    rw [hsearch, ht]
    simp only [Option.map_some, he]
    exact storeAt hg hs (hl.inData hmem) content fun first =>
      (img.entry t).rewrite first (content.length % 2^32)

theorem deleteFile (name : List UInt8) :
    ∃ d', vol.deleteFile d name = some ((vol.deleteImage img root own (encode83Name name)).1, d') ∧
      vol.Shows d' (vol.deleteImage img root own (encode83Name name)).2 := by
  have hsearch := h.search_match hg hl.rootChain hl.ends (encode83Name name)
  unfold Volume.deleteFile Volume.deleteImage
  cases ht : vol.lookup img root (encode83Name name) with
  | none =>
    rw [hsearch, ht]
    exact ⟨d, rfl, h⟩
  | some t =>
    obtain ⟨hmem, hlive, -⟩ := lookup_spec ht
    obtain ⟨d1, he, hs⟩ := freeOwned hg h (hl.owned t hmem hlive)
    obtain ⟨d2, he2, hs2⟩ := hs.writeDirEntry hg (hl.inData hmem) (img.entry t).deleted
    rw [hsearch, ht]
    simp only [Option.map_some, he]
    exact ⟨d2, congrArg some he2, hs2⟩

end Volume.Shows

end GeckoOS.Fs.Fat32
