import GeckoOS.Fs.Catalogue
import GeckoOS.Fs.Files

/-! Each call on an image does to its catalogue what the catalogue's own step says. -/
namespace GeckoOS.Fs.Fat32
open Lib

variable {vol : Volume} {d : Drive} {img img₁ : Image} {root l : List Nat} {own : Slot → List Nat} {t u : Slot}
  {raw : RawName} {name base ext content : List UInt8} {c c' : Catalogue} {call : Call} {z : Int}

/-- An image with the catalogue `c`. -/
structure Volume.Keeps (vol : Volume) (img : Image) (root : List Nat) (own : Slot → List Nat)
  (c : Catalogue) : Prop
    extends vol.Layout img root own where
  distinct : vol.Distinct img root
  sized : vol.Sized img root own
  catalogue : vol.catalogue img root own = c

namespace Volume.Keeps
variable (hk : vol.Keeps img root own c)
include hk

/-- A slot in use is found under its name. -/
theorem find (hu : vol.Named img root raw u) : c.find raw = some (vol.holding img own u) := by
  rw [← hk.catalogue]
  exact (find_iff hk.distinct).mpr ⟨u, hu, rfl⟩

theorem find_none (h : c.find raw = none) (hu : vol.Named img root raw u) : False := by
  have hfind := hk.find hu
  rw [h] at hfind
  cases hfind

theorem lookup_none (h : c.find raw = none) : vol.lookup img root raw = none := by
  rw [Option.eq_none_iff_forall_ne_some]
  exact fun u hu => hk.find_none h ((lookup_iff hk.distinct).mp hu)

theorem lookup_some {h : Holding} (hfind : c.find raw = some h) :
    ∃ t, vol.lookup img root raw = some t ∧ vol.Named img root raw t ∧ vol.holding img own t = h := by
  rw [← hk.catalogue] at hfind
  obtain ⟨t, ht, hh⟩ := (find_iff hk.distinct).mp hfind
  exact ⟨t, (lookup_iff hk.distinct).mpr ht, ht, hh⟩

theorem places : c.places = 0 ↔ vol.freeSlot img root = none := by
  rw [← hk.catalogue]
  exact places_eq_zero

theorem clusters : (vol.freeClusters img.fat).length = c.clusters := by
  rw [← hk.catalogue]
  rfl

end Volume.Keeps

/-- The clusters that are left when a chain is placed. -/
theorem freeClusters_place (vol : Volume) (img : Image) (content : List UInt8) :
    (vol.freeClusters (vol.place img (vol.newChain img.fat content.length) content).fat).length =
      (vol.freeClusters img.fat).length - vol.clustersNeeded content.length := by
  have hsplit : vol.freeClusters img.fat = vol.newChain img.fat content.length ++
      (vol.freeClusters img.fat).drop (vol.clustersNeeded content.length) := (List.take_append_drop ..).symm
  have hrest : vol.freeClusters (vol.place img (vol.newChain img.fat content.length) content).fat = _ :=
    freeClusters_relink hsplit
  rw [hrest, List.length_drop]

/-- Content that fits put into a slot under a name that no other slot has. -/
theorem stored_find (hg : vol.Geometry) (hk : vol.Keeps img root own c)
    (hf : vol.Frame img img₁ root own t) (ht : vol.BeforeEnd img root t) (entry : Nat → DirEntry) (dir : Bool)
    (hlive : ∀ first, (entry first).isLive) (hname : ∀ first, (entry first).rawName = raw)
    (hdir : ∀ first, (entry first).isDirectory = dir) (hcluster : ∀ first < 2^32, (entry first).cluster = first)
    (hsize : ∀ first, (entry first).fileSize = content.length % 2^32) (hlen : content.length < 2^32)
    (hold : ∀ u, vol.Named img root raw u → u = t) (hwas : (img.entry t).isLive → (img.entry t).rawName = raw)
    (hfit : content = [] ∨ vol.Fits img₁.fat content.length) :
    (vol.storeAt img₁ t content entry).1 = 0 ∧ ∃ own', vol.Keeps (vol.storeAt img₁ t content entry).2 root own'
      { find := Function.update c.find raw
          (some ⟨if dir then .directory else .file content,
            min (vol.clustersNeeded content.length) (vol.freeClusters img₁.fat).length⟩)
        places := c.places - ((img.entry t).isFree || (img.entry t).isEnd).toNat
        clusters := (vol.freeClusters img₁.fat).length - vol.clustersNeeded content.length } := by
  have hl := hk.toLayout
  rcases storeAt_result hg img₁ t content entry with ⟨-, he⟩ | ⟨hne, hno, -⟩
  · have hs := congrArg Prod.fst he
    have hl' := hf.stored hg hl ht (fun first => isEnd_of_isLive (hlive first)) hcluster hsize hs
    have hf' := hf.storeAt hl hg ht.mem content entry
    have hentry : (vol.storeAt img₁ t content entry).2.entry t =
      entry (vol.newFirst img₁.fat content.length) := by
      rw [he]
      exact entry_setEntry ..
    have hnamed : vol.Named (vol.storeAt img₁ t content entry).2 root raw t := by
      refine ⟨ht.mem, ?_, ?_⟩ <;> rw [hentry]
      · exact hlive _
      · exact hname _
    have hfile : dir = false → vol.content (vol.storeAt img₁ t content entry).2
        (vol.newChain img₁.fat content.length) (entry (vol.newFirst img₁.fat content.length)).fileSize =
          content := by
      rintro rfl
      have hholds := (hf.holds hg hl ht.mem hlive hname hdir hsize hlen hs).content
      rwa [Function.update_self, hentry] at hholds
    obtain ⟨hd', hfind⟩ := find_put (l := vol.newChain img₁.fat content.length) hf' hk.distinct hnamed hold hwas
    have hplaces := places_change (l := vol.newChain img₁.fat content.length) hl.rootChain.nodup hf' ht.mem
    rw [hentry, not_spare_of_live (hlive _), hk.catalogue] at hplaces
    have hsized := sized_change hf' hk.sized (l := vol.newChain img₁.fat content.length) fun _ hdir' => by
      rw [hentry] at hdir' ⊢
      rw [hfile ((hdir _).symm.trans hdir'), hsize, Nat.mod_eq_of_lt hlen]
    refine ⟨hs, Function.update own t (vol.newChain img₁.fat content.length), hl', hd', hsized, ?_⟩
    ext1
    · rw [hfind, hk.catalogue]
      congr 2
      unfold Volume.holding
      rw [Function.update_self, hentry, hdir]
      congr 1
      · cases dir with
        | true => rfl
        | false => simp only [Bool.false_eq_true, if_false, hfile rfl]
      · exact List.length_take
    · rw [Bool.toNat_false] at hplaces
      exact Nat.eq_sub_of_add_eq hplaces
    · rw [he]
      exact freeClusters_place vol img₁ content
  · exact absurd hfit (by simp [hne, hno])

section calls
variable (hk : vol.Keeps img root own c)
include hk

theorem Volume.Keeps.fits (content : List UInt8) :
    c.Fits vol.clustersNeeded content ↔ content = [] ∨ vol.Fits img.fat content.length := by
  rw [Catalogue.Fits, ← hk.clusters]
  rfl

/-- All free clusters taken for a content that they do not hold, and no entry for it. -/
private theorem lost_keeps (ht : vol.freeSlot img root = some t) (hno : ¬ vol.Fits img.fat content.length) :
    ∃ own', vol.Keeps (vol.place img (vol.newChain img.fat content.length) content) root own'
      { c with clusters := 0 } := by
  have hl := hk.toLayout
  have hdead := freeSlot_not_live ht
  have hmem := (freeSlot_spec ht).1
  have hframe : vol.Frame img (vol.place img (vol.newChain img.fat content.length) content) root own t :=
    (Volume.Frame.refl img root own t).place hl content
  have hsame : ∀ u ∈ vol.slots root,
      (vol.place img (vol.newChain img.fat content.length) content).entry u = img.entry u :=
    fun u hu => entry_congr (place_data_of_notMem fun hc =>
      (hl.free_notMem (mem_newChain hc).2.2).1 (mem_slots.mp hu).1)
  have hstill : ((vol.place img (vol.newChain img.fat content.length) content).entry t).isLive = false := by
    rw [hsame t hmem, hdead]
  have hends : vol.EndsOnce (vol.place img (vol.newChain img.fat content.length) content) root := by
    refine List.Pairwise.imp_of_mem (fun {u v} hu hv huv => ?_) hl.ends
    rw [hsame u hu, hsame v hv]
    exact huv
  have hl' := hl.replace (l := []) hframe.rootFat (fun u hu hut hlive => hframe.fat u hu hlive hut) hframe.entry
    hends fun hlive => by simp [hstill] at hlive
  obtain ⟨hd', hfind⟩ := find_keep (l := []) hframe hk.distinct hstill hdead
  have hplaces := places_change (l := []) hl.rootChain.nodup hframe hmem
  rw [hsame t hmem] at hplaces
  have hleft := freeClusters_place vol img content
  rw [Nat.sub_eq_zero_of_le (Nat.le_of_not_le hno)] at hleft
  have hsized := sized_change hframe hk.sized (l := []) fun hlive => by simp [hstill] at hlive
  refine ⟨Function.update own t [], hl', hd', hsized, ?_⟩
  ext1
  · rw [hfind, hk.catalogue]
  · rw [Nat.add_right_cancel hplaces, hk.catalogue]
  · exact hleft

/-- `fat32_create_file` under a new name. -/
theorem create_keeps (hg : vol.Geometry) (he : raw 0 ≠ entryEnd) (hf : raw 0 ≠ entryFree)
    (hlen : content.length < 2^32)
    (hnone : c.find raw = none) (hcreate : c.create vol.clustersNeeded raw content = (z, c')) :
    (vol.createImage img root raw content).1 = z ∧
      ∃ own', vol.Keeps (vol.createImage img root raw content).2 root own' c' := by
  have hl := hk.toLayout
  obtain ⟨rfl, rfl⟩ := Prod.ext_iff.mp hcreate
  unfold Volume.createImage Catalogue.create
  cases ht : vol.freeSlot img root with
  | none =>
    rw [if_pos (hk.places.mpr ht)]
    exact ⟨rfl, own, hk⟩
  | some t =>
    have hplaces : c.places ≠ 0 := fun hz => by
      rw [hk.places.mp hz] at ht
      cases ht
    have hdead := freeSlot_not_live ht
    have hmem := (freeSlot_spec ht).1
    rw [if_neg hplaces]
    dsimp only
    by_cases hfit : content = [] ∨ vol.Fits img.fat content.length
    · rw [if_pos ((hk.fits content).mpr hfit)]
      obtain ⟨hs, own', hk'⟩ := stored_find hg hk (.refl img root own t) (ends_before_free ht)
        (fun first => newEntry raw attrArchive today first (content.length % 2^32)) false
        (fun first => newEntry_isLive he hf (.inl rfl)) (fun first => newEntry_rawName raw ..)
        (fun first => by simp [DirEntry.isDirectory]; decide) (fun first => newEntry_cluster raw _ _)
        (fun first => newEntry_fileSize raw _ _ (Nat.mod_lt _ (by decide))) hlen
        (fun u hu => (hk.find_none hnone hu).elim) (by simp [hdead]) hfit
      have hspare : ((img.entry t).isFree || (img.entry t).isEnd) = true := by
        rw [Bool.or_eq_true]
        exact (freeSlot_spec ht).2
      rw [hk.clusters, hspare] at hk'
      exact ⟨hs, own', hk'⟩
    · rw [if_neg fun hc => hfit ((hk.fits content).mp hc)]
      rcases storeAt_result hg img t content fun first =>
          newEntry raw attrArchive today first (content.length % 2^32) with ⟨hfit', -⟩ | ⟨-, hno, hst⟩
      · exact absurd hfit' hfit
      · rw [hst]
        exact ⟨rfl, lost_keeps hk ht hno⟩

/-- `fat32_write_file` over an entry. -/
theorem write_keeps (hg : vol.Geometry) {h : Holding} (hlen : content.length < 2^32)
    (hfind : c.find raw = some h)
    (hfit : (c.release h).Fits vol.clustersNeeded content) :
    (vol.writeImage img root own raw content).1 = 0 ∧
    ∃ own', vol.Keeps (vol.writeImage img root own raw content).2 root own'
      ((c.release h).store vol.clustersNeeded raw (h.object.rewrite content) content.length) := by
  have hl := hk.toLayout
  obtain ⟨t, ht, ⟨hmem, hlive, hraw⟩, rfl⟩ := hk.lookup_some hfind
  have ho := hl.owned t hmem hlive
  have hcount := (freeClusters_release ho.nodup (fun c => ho.inside) fun c => ho.fat_ne_zero).length_eq
  rw [List.length_append, hk.clusters] at hcount
  have hfit' : content = [] ∨ vol.Fits (img.release (own t)).fat content.length := by
    rw [Volume.Fits, hcount]
    exact hfit
  unfold Volume.writeImage
  rw [ht]
  dsimp only
  obtain ⟨hs, own', hk'⟩ :=
    stored_find hg hk (Volume.Frame.release hl hmem hlive) (hl.ends.before_live hmem hlive)
    (fun first => (img.entry t).rewrite first (content.length % 2^32)) (img.entry t).isDirectory
    (fun first => by rwa [rewrite_isLive]) (fun first => rewrite_rawName.trans hraw)
      (fun first => rewrite_isDirectory)
    (fun first => rewrite_cluster) (fun first => rewrite_fileSize (Nat.mod_lt _ (by decide))) hlen
    (fun u hu => hk.distinct u hu.1 t hmem hu.2.1 hlive (hu.2.2.trans hraw.symm)) (fun _ => hraw) hfit'
  refine ⟨hs, own', ?_⟩
  rw [hcount, not_spare_of_live hlive] at hk'
  have hobject : (if (img.entry t).isDirectory then Object.directory else .file content) =
      (vol.holding img own t).object.rewrite content := by
    unfold Volume.holding
    cases (img.entry t).isDirectory <;> rfl
  rw [hobject] at hk'
  exact hk'

/-- `fat32_delete_file` of an entry. -/
theorem delete_keeps {h : Holding} (hfind : c.find raw = some h) :
    (vol.deleteImage img root own raw).1 = 0 ∧
      vol.Keeps (vol.deleteImage img root own raw).2 root (vol.deleteOwn img root own raw)
        (c.remove raw h) := by
  have hl := hk.toLayout
  obtain ⟨t, ht, hnamed, rfl⟩ := hk.lookup_some hfind
  obtain ⟨hmem, hlive, hraw⟩ := hnamed
  have ho := hl.owned t hmem hlive
  have hcount := (freeClusters_release ho.nodup (fun c => ho.inside) fun c => ho.fat_ne_zero).length_eq
  rw [List.length_append, hk.clusters] at hcount
  obtain ⟨hframe, hl'⟩ := hl.deleted hmem hlive
  have hgone : (((img.release (own t)).setEntry t (img.entry t).deleted).entry t).isLive = false := by
    rw [entry_setEntry, deleted_isLive]
  obtain ⟨hd', hfind'⟩ := find_remove (l := []) hframe hk.distinct hgone ⟨hmem, hlive, hraw⟩
  have hplaces := places_change (l := []) hl.rootChain.nodup hframe hmem
  rw [not_spare_of_live hlive, entry_setEntry, hk.catalogue] at hplaces
  have hfree : (img.entry t).deleted.isFree = true := by
    simp [DirEntry.isFree, DirEntry.first, DirEntry.deleted]
  rw [hfree, Bool.true_or] at hplaces
  unfold Volume.deleteImage Volume.deleteOwn
  rw [ht]
  have hsized := sized_change hframe hk.sized (l := []) fun hlive => by simp at hlive
  refine ⟨rfl, hl', hd', hsized, ?_⟩
  ext1
  · rw [hfind', hk.catalogue]
    rfl
  · exact hplaces
  · exact hcount

/-- `fat32_mkdir` under a new name. -/
theorem mkdir_keeps (he : raw 0 ≠ entryEnd) (hf : raw 0 ≠ entryFree) (hnone : c.find raw = none)
    (hplaces : c.places ≠ 0) :
    (vol.mkdirImage img root raw).1 = 0 ∧ ∃ own', vol.Keeps (vol.mkdirImage img root raw).2 root own'
      { c with find := Function.update c.find raw (some ⟨.directory, 0⟩), places := c.places - 1 } := by
  have hl := hk.toLayout
  unfold Volume.mkdirImage
  cases ht : vol.freeSlot img root with
  | none => exact absurd (hk.places.mpr ht) hplaces
  | some t =>
    obtain ⟨hmem, hspare⟩ := freeSlot_spec ht
    have hdead := freeSlot_not_live ht
    have hlive : (newEntry raw attrDirectory 0 0 0).isLive := newEntry_isLive he hf (.inr rfl)
    have hdir : (newEntry raw attrDirectory 0 0 0).isDirectory = true := by
      simp [DirEntry.isDirectory, attrDirectory]
    have hframe := (Volume.Frame.refl img root own t).setEntry hl hmem (newEntry raw attrDirectory 0 0 0)
    have hl' := hframe.layout (l := []) hl (ends_before_free ht) (by simp [newEntry_isEnd he]) fun _ =>
      ⟨.inl ⟨by simp [newEntry_cluster], rfl, by simp [hdir]⟩, by simp, by simp⟩
    have hnamed : vol.Named (img.setEntry t (newEntry raw attrDirectory 0 0 0)) root raw t := by
      refine ⟨hmem, ?_, ?_⟩ <;> rw [entry_setEntry]
      · exact hlive
      · exact newEntry_rawName ..
    obtain ⟨hd', hfind⟩ := find_put (l := []) hframe hk.distinct hnamed
      (fun u hu => (hk.find_none hnone hu).elim)
      (by simp [hdead])
    have hcount := places_change (l := []) hl.rootChain.nodup hframe hmem
    rw [entry_setEntry, not_spare_of_live hlive, (Bool.or_eq_true _ _).mpr hspare, hk.catalogue] at hcount
    have hsized := sized_change hframe hk.sized (l := []) fun _ hfile => by
      rw [entry_setEntry, hdir] at hfile
      cases hfile
    refine ⟨rfl, Function.update own t [], hl', hd', hsized, ?_⟩
    ext1
    · rw [hfind, hk.catalogue]
      congr 2
      unfold Volume.holding
      rw [entry_setEntry, hdir, Function.update_self]
      rfl
    · exact Nat.eq_sub_of_add_eq hcount
    · exact hk.clusters

end calls

section names

private theorem getD_upper (l : List UInt8) (i : Nat) : (l.map upper).getD i 0 = upper (l.getD i 0) := by
  change (l.map upper).getD i (upper 0) = _
  exact List.getD_map l 0 upper

theorem lastDot_upper (name : List UInt8) : lastDot (name.map upper) = lastDot name := by
  have hdot : ∀ b, (upper b == 46) = (b == 46) := by
    intro b
    rw [Bool.eq_iff_iff, beq_iff_eq, beq_iff_eq, upper_eq_dot]
  unfold lastDot
  simp only [List.length_map, getD_upper, hdot]

/-- The case of its letters does not show in an entry. -/
theorem encode83Name_upper (name : List UInt8) : encode83Name (name.map upper) = encode83Name name := by
  funext k
  unfold encode83Name
  simp only [lastDot_upper, List.length_map, getD_upper, upper_upper]

/-- Every name in use is that of an entry with at most eight and three characters. -/
def Catalogue.Regular (c : Catalogue) : Prop :=
  ∀ raw h, c.find raw = some h → ∃ name base ext, Is83 name base ext ∧ raw = encode83Name name

/-- In such a catalogue the listing leads to the entries with the raw name. -/
theorem shown_iff (hk : vol.Keeps img root own c) (hc : c.Regular) (hname : Is83 name base ext)
    (hu : u ∈ vol.slots root) (hlive : (img.entry u).isLive) :
    (img.entry u).shown = name.map upper ↔ (img.entry u).rawName = encode83Name name := by
  constructor
  · intro hshown
    obtain ⟨name', base', ext', hname', hraw⟩ := hc _ _ (hk.find ⟨hu, hlive, rfl⟩)
    rw [hname'.shown hraw] at hshown
    rw [hraw, ← encode83Name_upper name', hshown, encode83Name_upper]
  · exact fun hraw => hname.shown hraw

end names

end GeckoOS.Fs.Fat32
