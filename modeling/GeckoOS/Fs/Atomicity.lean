import GeckoOS.Fs.Isolation

/-! When a call that fails for lack of space has changed nothing. -/
namespace GeckoOS.Fs.Fat32
open Lib

/-- The entries, the set of allocated clusters and what can be read of every live file. -/
structure Volume.Unchanged (vol : Volume) (d d' : Drive) (root : List Nat) : Prop where
  entries : ∀ t ∈ vol.slots root, (vol.image d').entry t = (vol.image d).entry t
  allocated : ∀ c, 2 ≤ c → c < vol.fatEntries → ((vol.image d').fat c = 0 ↔ (vol.image d).fat c = 0)
  readable : ∀ t ∈ vol.slots root, ((vol.image d).entry t).isLive →
  ((vol.image d).entry t).isDirectory = false →
    ∀ offset len, min len (((vol.image d).entry t).fileSize - offset) < 2^31 →
      vol.fileRead d' ((vol.image d).entry t).toFile offset len =
        vol.fileRead d ((vol.image d).entry t).toFile offset len

namespace Volume
variable (vol : Volume)

/-- No slot, or enough clusters, or none at all. -/
def CreateRoom (img : Image) (root : List Nat) (len : Nat) : Prop :=
  vol.freeSlot img root = none ∨ vol.Fits img.fat len ∨ vol.freeClusters img.fat = []

/-- Enough clusters together with the old ones. Else all of these are filled in
ascending order, which shows unless none else was free and what the entry still
points to happens to be the old content. -/
def RewriteRoom (img : Image) (t : Slot) (old : List Nat) (content : List UInt8) : Prop :=
  vol.clustersNeeded content.length ≤ (vol.freeClusters img.fat).length + old.length ∨
    (vol.freeClusters img.fat = [] ∧ ((img.entry t).isDirectory ∨
      vol.content img old (img.entry t).fileSize =
        ((content.take (old.length * vol.clusterSize)).drop
          ((old.filter (· < (img.entry t).cluster)).length * vol.clusterSize)).take (img.entry t).fileSize))

/-- As for a new file if none is deleted first, else enough clusters together with the old ones. -/
def AppendRoom (img : Image) (root : List Nat) (own : Slot → List Nat) (name content : List UInt8) : Prop :=
  match vol.listedSlot img root name with
  | none => vol.CreateRoom img root content.length
  | some _ =>
    match vol.lookup img root (encode83Name name) with
    | none => vol.CreateRoom img root content.length
    | some t => content = [] ∨
        vol.clustersNeeded content.length ≤ (vol.freeClusters img.fat).length + (own t).length

/-- The volume before the call is one on which the call, should it fail, changes nothing. -/
def Room (img : Image) (root : List Nat) (own : Slot → List Nat) : Call → Prop
  | .create _ content => vol.CreateRoom img root content.length
  | .write name content =>
    match vol.lookup img root (encode83Name name) with
    | none => vol.CreateRoom img root content.length
    | some t => vol.RewriteRoom img t (own t) content
  | .append name content => vol.AppendRoom img root own name (vol.appendContent img root own name content)
  | .delete _ | .mkdir _ => True

end Volume

variable {vol : Volume} {d d' : Drive} {img img' : Image} {root l : List Nat} {own : Slot → List Nat} {t : Slot}
  {c : Nat} {raw : RawName} {name content : List UInt8}

/-- In an ascending list the position is the number of smaller elements. -/
private theorem idxOf_eq_length_filter (hl : l.Pairwise (· < ·)) (hc : c ∈ l) :
    l.idxOf c = (l.filter (· < c)).length := by
  induction l with
  | nil => cases hc
  | cons x l ih =>
    obtain ⟨hx, hl⟩ := List.pairwise_cons.mp hl
    rcases List.mem_cons.mp hc with rfl | hc
    · have hnone : (c :: l).filter (· < c) = [] := by
        rw [List.filter_eq_nil_iff]
        intro y hy
        rcases List.mem_cons.mp hy with rfl | hy
        · simp
        · simpa using (hx y hy).le
      rw [hnone, List.idxOf_cons_self]
      rfl
    · have hlt := hx c hc
      rw [List.idxOf_cons_ne _ hlt.ne, List.filter_cons_of_pos (by simpa using hlt), List.length_cons, ih hl hc]

/-- The clusters free once a chain is freed. -/
theorem freeClusters_release (hnd : l.Nodup) (hin : ∀ c ∈ l, 2 ≤ c ∧ c < vol.fatEntries)
    (hfat : ∀ c ∈ l, img.fat c ≠ 0) :
    (vol.freeClusters (img.release l).fat).Perm (vol.freeClusters img.fat ++ l) := by
  have hdisj : (vol.freeClusters img.fat).Disjoint l := fun c hf hc => hfat c hc (mem_freeClusters.mp hf).2.2
  refine (List.perm_ext_iff_of_nodup (freeClusters_nodup _)
    ((freeClusters_nodup _).append hnd hdisj)).mpr fun c => ?_
  rw [List.mem_append, mem_freeClusters, mem_freeClusters]
  by_cases hc : c ∈ l
  · have hrel : (img.release l).fat c = 0 := if_pos hc
    have := hin c hc
    tauto
  · have hrel : (img.release l).fat c = img.fat c := if_neg hc
    rw [hrel]
    tauto

theorem freeClusters_sorted (fat : Nat → Nat) : (vol.freeClusters fat).Pairwise (· < ·) :=
  List.pairwise_lt_range.filter _

/-- An empty file needs one cluster. -/
theorem fits_zero (fat : Nat → Nat) : vol.Fits fat 0 ∨ vol.freeClusters fat = [] := by
  cases hF : vol.freeClusters fat with
  | nil => exact .inr rfl
  | cons c cs =>
    refine .inl ?_
    rw [Volume.Fits, hF, Volume.clustersNeeded, if_pos rfl]
    simp

/-- Clusters that are too few are all taken. -/
theorem newChain_of_not_fits {fat : Nat → Nat} {len : Nat} (h : ¬ vol.Fits fat len) :
    vol.newChain fat len = vol.freeClusters fat := List.take_of_length_le (by unfold Volume.Fits at h; omega)

/-- A taken cluster is allocated. -/
theorem place_fat_ne_zero (hl : ∀ x ∈ l, 2 ≤ x) (hc : c ∈ l) : (vol.place img l content).fat c ≠ 0 := by
  have hmem : (vol.place img l content).fat c ∈ l ∨ (vol.place img l content).fat c = clusterEoc :=
    relink_mem hc
  rcases hmem with h | h
  · have := hl _ h
    omega
  · rw [h]
    decide

namespace Volume.Unchanged

theorem of_frames (hg : vol.Geometry) (h : vol.Shows d img) (h' : vol.Shows d' img')
    (hl : vol.Layout img root own)
    (hentry : ∀ t ∈ vol.slots root, img'.entry t = img.entry t)
    (halloc : ∀ c, 2 ≤ c → c < vol.fatEntries → (img'.fat c = 0 ↔ img.fat c = 0))
    (hread : ∀ t ∈ vol.slots root, (img.entry t).isLive → (img.entry t).isDirectory = false →
      (∃ l, vol.Owns img'.fat (img.entry t) l ∧
        vol.content img' l (img.entry t).fileSize = vol.content img (own t) (img.entry t).fileSize)) :
    vol.Unchanged d d' root := by
  refine ⟨?_, ?_, ?_⟩ <;> rw [h.image]
  · rwa [h'.image]
  · rwa [h'.image]
  · intro t ht hlive hfile offset len hlen
    obtain ⟨l, howns, hsame⟩ := hread t ht hlive hfile
    rw [howns.fileRead hg h' hfile hlen, (hl.owned t ht hlive).fileRead hg h hfile hlen, hsame]

/-- The same image on another drive. -/
theorem of_image (hg : vol.Geometry) (h : vol.Shows d img) (h' : vol.Shows d' img)
    (hl : vol.Layout img root own) :
    vol.Unchanged d d' root :=
  of_frames hg h h' hl (fun _ _ => rfl) (fun _ _ _ => Iff.rfl) fun t ht hlive _ =>
    ⟨own t, hl.owned t ht hlive, rfl⟩

end Volume.Unchanged

/-- A cluster that was free and is not. -/
private theorem not_unchanged_of_taken (h : vol.Shows d img) (h' : vol.Shows d' img')
    (hc : c ∈ vol.freeClusters img.fat) (hc' : img'.fat c ≠ 0) : ¬ vol.Unchanged d d' root := by
  intro hu
  obtain ⟨h2, hn, hz⟩ := mem_freeClusters.mp hc
  have := hu.allocated c h2 hn
  rw [h.image, h'.image] at this
  exact hc' (this.mpr hz)

/-- All free clusters taken, when there were any. -/
private theorem not_unchanged_of_filled (h : vol.Shows d img)
    (h' : vol.Shows d' (vol.place img' (vol.freeClusters img'.fat) content))
    (hsub : vol.freeClusters img.fat ⊆ vol.freeClusters img'.fat) (hF : vol.freeClusters img.fat ≠ []) :
    ¬ vol.Unchanged d d' root := by
  obtain ⟨c, cs, hcs⟩ := List.exists_cons_of_ne_nil hF
  have hc : c ∈ vol.freeClusters img.fat := by simp [hcs]
  exact not_unchanged_of_taken h h' hc (place_fat_ne_zero (fun x hx => (mem_freeClusters.mp hx).1) (hsub hc))

section
variable (hg : vol.Geometry) (h : vol.Shows d img) (hl : vol.Layout img root own)
include hg h hl

theorem create_atomic_iff (raw : RawName) (content : List UInt8)
    (h' : vol.Shows d' (vol.createImage img root raw content).2) :
    ((vol.createImage img root raw content).1 ≠ 0 → vol.Unchanged d d' root) ↔
      vol.CreateRoom img root content.length := by
  unfold Volume.CreateRoom
  unfold Volume.createImage at h' ⊢
  cases ht : vol.freeSlot img root with
  | none =>
    rw [ht] at h'
    exact iff_of_true (fun _ => .of_image hg h h' hl) (.inl rfl)
  | some t =>
    rw [ht] at h'
    dsimp only at h' ⊢
    rcases storeAt_result hg img t content fun first =>
      newEntry raw attrArchive today first (content.length % 2^32) with ⟨hfit, he⟩ | ⟨-, hfit, he⟩
    · rw [he]
      refine iff_of_true (fun hne => absurd rfl hne) (.inr ?_)
      rcases hfit with rfl | hfit
      · exact fits_zero img.fat
      · exact .inl hfit
    · rw [he] at h' ⊢
      rw [newChain_of_not_fits hfit] at h'
      by_cases hF : vol.freeClusters img.fat = []
      · rw [hF, place_nil] at h'
        exact iff_of_true (fun _ => .of_image hg h h' hl) (.inr (.inr hF))
      · refine iff_of_false (fun hu => ?_) (by simp [hfit, hF])
        exact not_unchanged_of_filled h h' (List.Subset.refl _) hF (hu (by simp))

end

/-- More clusters needed than there are: the content fills them all. -/
private theorem mul_lt_of_clustersNeeded {k len : Nat} (hlen : len ≠ 0) (hk : k < vol.clustersNeeded len) :
    k * vol.clusterSize < len := by
  rw [Volume.clustersNeeded, if_neg hlen] at hk
  have hle := Nat.mul_le_of_le_div _ _ _ (Nat.succ_le_of_lt hk)
  rw [Nat.succ_mul] at hle
  have hpos : 0 < vol.clusterSize := by
    rcases Nat.eq_zero_or_pos vol.clusterSize with hz | hz
    · rw [hz, Nat.div_zero] at hk
      omega
    · exact hz
  omega

/-- The clusters of an entry freed and, with all others in use, filled again. -/
def Volume.refill (vol : Volume) (img : Image) (old : List Nat) (content : List UInt8) : Image :=
  vol.place (img.release old) (vol.freeClusters (img.release old).fat) content

section refill
variable (hg : vol.Geometry) (h : vol.Shows d img) (hl : vol.Layout img root own) (ht : t ∈ vol.slots root)
  (hlive : (img.entry t).isLive) (hF : vol.freeClusters img.fat = [])
include hl ht hlive

private theorem refill_perm (hF : vol.freeClusters img.fat = []) :
    (vol.freeClusters (img.release (own t)).fat).Perm (own t) := by
  have ho := hl.owned t ht hlive
  have hperm := freeClusters_release ho.nodup (fun c => ho.inside) fun c => ho.fat_ne_zero
  rwa [hF, List.nil_append] at hperm

private theorem refill_frame (hF : vol.freeClusters img.fat = [])
    (hneed : (own t).length < vol.clustersNeeded content.length) :
    vol.Frame img (vol.refill img (own t) content) root own t := by
  have hframe := (Volume.Frame.release hl ht hlive).place hl content
  have hfit : ¬ vol.Fits (img.release (own t)).fat content.length := by
    rw [Volume.Fits, (refill_perm hl ht hlive hF).length_eq]
    omega
  rwa [newChain_of_not_fits hfit] at hframe

private theorem refill_entry (content : List UInt8) {u : Slot} (hu : u ∈ vol.slots root) :
    (vol.refill img (own t) content).entry u = img.entry u := by
  have hsame : (vol.refill img (own t) content).entry u = (img.release (own t)).entry u := by
    refine entry_congr (place_data_of_notMem fun hc => ?_)
    exact ((Volume.Frame.release hl ht hlive).free_notMem hl (mem_freeClusters.mp hc).2.2).1 (mem_slots.mp hu).1
  exact hsame

omit hl ht hlive in
private theorem refill_allocated (hF : vol.freeClusters img.fat = []) (old : List Nat) (content : List UInt8)
    (h2 : 2 ≤ c) (hn : c < vol.fatEntries) : (vol.refill img old content).fat c = 0 ↔ img.fat c = 0 := by
  have hold : img.fat c ≠ 0 := fun hz => by simpa [hF] using mem_freeClusters.mpr ⟨h2, hn, hz⟩
  refine iff_of_false ?_ hold
  by_cases hc : c ∈ vol.freeClusters (img.release old).fat
  · exact place_fat_ne_zero (fun x hx => (mem_freeClusters.mp hx).1) hc
  · rw [Volume.refill, place_fat_of_notMem hc]
    exact fun hz => hc (mem_freeClusters.mpr ⟨h2, hn, hz⟩)

include hg hF

/-- The entry now reads from its old first cluster on, in the ascending order of the clusters. -/
private theorem refill_content (hne : content ≠ [])
    (hneed : (own t).length < vol.clustersNeeded content.length) :
    ∃ l, vol.Owns (vol.refill img (own t) content).fat (img.entry t) l ∧
      vol.content (vol.refill img (own t) content) l (img.entry t).fileSize =
        ((content.take ((own t).length * vol.clusterSize)).drop
          (((own t).filter (· < (img.entry t).cluster)).length * vol.clusterSize)).take
            (img.entry t).fileSize := by
  have hperm := refill_perm hl ht hlive hF
  rcases hl.owned t ht hlive with ⟨hz, hnil, hsize⟩ | ⟨hold, hchain⟩
  · refine ⟨[], .inl ⟨hz, rfl, hsize⟩, ?_⟩
    simp [hnil, Volume.content]
  · have hfirst : (img.entry t).cluster ∈ vol.freeClusters (img.release (own t)).fat := by
      obtain ⟨x, xs, hx⟩ := List.exists_cons_of_ne_nil hold
      rw [hperm.mem_iff, (hchain.tail hx).1, hx]
      exact List.mem_cons_self
    have hidx := List.idxOf_lt_length_of_mem hfirst
    have hrank := idxOf_eq_length_filter (freeClusters_sorted _) hfirst
    rw [(hperm.filter _).length_eq] at hrank
    have hlink : vol.Chain (vol.refill img (own t) content).fat _ _ := chain_relink hg (freeClusters_nodup _)
      (fun c hc => ⟨(mem_freeClusters.mp hc).1, (mem_freeClusters.mp hc).2.1⟩) hidx
    rw [List.getElem_idxOf hidx] at hlink
    have hfull := mul_lt_of_clustersNeeded (by simpa using hne) hneed
    rw [← hperm.length_eq] at hfull
    refine ⟨_, .inr ⟨by simpa using hidx, hlink⟩, ?_⟩
    rw [Volume.refill, content_place_drop hg (freeClusters_nodup _) _ _ hfull.le, hrank, hperm.length_eq]

include h

/-- The other files are as before, so only the one that was written decides. -/
private theorem refill_unchanged_iff (hneed : (own t).length < vol.clustersNeeded content.length)
    (h' : vol.Shows d' (vol.refill img (own t) content))
    (hown : vol.Owns (vol.refill img (own t) content).fat (img.entry t) l) :
    vol.Unchanged d d' root ↔ (img.entry t).isDirectory ∨ vol.content img (own t) (img.entry t).fileSize =
      vol.content (vol.refill img (own t) content) l (img.entry t).fileSize := by
  constructor
  · intro hu
    by_cases hdir : (img.entry t).isDirectory = true
    · exact .inl hdir
    · have hfile : (img.entry t).isDirectory = false := by simpa using hdir
      have hread := hu.readable t ht
      rw [h.image] at hread
      refine .inr (content_unique (fun offset => (hl.owned t ht hlive).fileRead hg h hfile (by omega))
        fun offset => ?_)
      rw [← hown.fileRead hg h' hfile (by omega), hread hlive hfile offset 1 (by omega)]
  · intro hcond
    have hframe := refill_frame hl ht hlive hF hneed
    refine .of_frames hg h h' hl (fun u hu => refill_entry hl ht hlive content hu)
      (fun c => refill_allocated hF (own t) content) fun u hu hlu hfile => ?_
    by_cases hut : u = t
    · subst hut
      exact ⟨l, hown, (hcond.resolve_left (by simp [hfile])).symm⟩
    · exact ⟨own u, (hl.owned u hu hlu).congr (hframe.fat u hu hlu hut),
        content_congr (hframe.data u hu hlu hut)⟩

end refill

section
variable (hg : vol.Geometry) (h : vol.Shows d img) (hl : vol.Layout img root own)
include hg h hl

private theorem rewrite_atomic_iff (content : List UInt8) (ht : vol.lookup img root raw = some t)
    {entry : Nat → DirEntry} (h' : vol.Shows d' (vol.storeAt (img.release (own t)) t content entry).2) :
    ((vol.storeAt (img.release (own t)) t content entry).1 ≠ 0 → vol.Unchanged d d' root) ↔
      vol.RewriteRoom img t (own t) content := by
  obtain ⟨hmem, hlive, -⟩ := lookup_spec ht
  have ho := hl.owned t hmem hlive
  have hperm := freeClusters_release ho.nodup (fun c => ho.inside) fun c => ho.fat_ne_zero
  have hcount := hperm.length_eq
  rw [List.length_append] at hcount
  unfold Volume.RewriteRoom
  rcases storeAt_result hg (img.release (own t)) t content entry with ⟨hfit, he⟩ | ⟨hne, hfit, he⟩
  · rw [he]
    refine iff_of_true (fun hz => absurd rfl hz) ?_
    have hfit' : vol.Fits (img.release (own t)).fat content.length ∨
        vol.freeClusters (img.release (own t)).fat = [] := by
      rcases hfit with rfl | hfit
      · exact fits_zero _
      · exact .inl hfit
    rcases hfit' with hfit | hnil
    · exact .inl (hcount ▸ hfit)
    · rw [hnil, List.length_nil] at hcount
      have hF : vol.freeClusters img.fat = [] := List.length_eq_zero_iff.mp (by omega)
      have hold : own t = [] := List.length_eq_zero_iff.mp (by omega)
      exact .inr ⟨hF, .inr (by simp [hold, Volume.content])⟩
  · rw [he] at h' ⊢
    rw [newChain_of_not_fits hfit] at h'
    have hneed : ¬ vol.clustersNeeded content.length ≤ (vol.freeClusters img.fat).length + (own t).length :=
      hcount ▸ hfit
    rw [forall_prop_of_true (by simp), or_iff_right hneed]
    by_cases hF : vol.freeClusters img.fat = []
    · rw [hF, List.length_nil] at hneed
      obtain ⟨l, hown, hcontent⟩ := refill_content hg hl hmem hlive hF hne (by omega)
      rw [refill_unchanged_iff hg h hl hmem hlive hF (by omega) h' hown, hcontent]
      exact (and_iff_right hF).symm
    · refine iff_of_false ?_ fun hr => hF hr.1
      exact not_unchanged_of_filled h h' (fun c hc => hperm.mem_iff.mpr (List.mem_append_left _ hc)) hF

/-- `fat32_append_file` has already deleted the entry when it creates it again. -/
private theorem recreate_atomic_iff (raw : RawName) (content : List UInt8)
    (ht : vol.lookup img root raw = some t)
    (h' : vol.Shows d'
      (vol.createImage ((img.release (own t)).setEntry t (img.entry t).deleted) root raw content).2) :
    ((vol.createImage ((img.release (own t)).setEntry t (img.entry t).deleted) root raw content).1 ≠ 0 →
        vol.Unchanged d d' root) ↔
      content = [] ∨ vol.clustersNeeded content.length ≤
        (vol.freeClusters img.fat).length + (own t).length := by
  obtain ⟨hmem, hlive, -⟩ := lookup_spec ht
  have ho := hl.owned t hmem hlive
  have hcount := (freeClusters_release ho.nodup (fun c => ho.inside) fun c => ho.fat_ne_zero).length_eq
  rw [List.length_append] at hcount
  have hl' := (hl.deleted hmem hlive).2
  unfold Volume.createImage at h' ⊢
  cases hs : vol.freeSlot ((img.release (own t)).setEntry t (img.entry t).deleted) root with
  | none =>
    -- the slot of the deleted entry is free
    have := List.find?_eq_none.mp hs t hmem
    simp [DirEntry.isFree, DirEntry.first, DirEntry.deleted] at this
  | some s =>
    rw [hs] at h'
    dsimp only at h' ⊢
    rcases storeAt_result hg ((img.release (own t)).setEntry t (img.entry t).deleted) s content fun first =>
      newEntry raw attrArchive today first (content.length % 2^32) with ⟨hfit, he⟩ | ⟨hne, hfit, he⟩
    · rw [he]
      exact iff_of_true (fun hz => absurd rfl hz) (hfit.imp_right fun hfit => hcount ▸ hfit)
    · rw [he] at h' ⊢
      refine iff_of_false (fun hu => ?_) fun hr => ?_
      · have hentry := (hu (by simp)).entries t hmem
        rw [h.image, h'.image, entry_congr (place_data_of_notMem fun hc =>
          (hl'.free_notMem (mem_newChain hc).2.2).1 (mem_slots.mp hmem).1), entry_setEntry] at hentry
        rw [← hentry, deleted_isLive] at hlive
        cases hlive
      · exact hr.elim hne fun hle => hfit (hcount.symm ▸ hle : _ ≤ _)

private theorem append_atomic_iff (name content : List UInt8)
    (h' : vol.Shows d' (vol.appendImage img root own name content).2) :
    ((vol.appendImage img root own name content).1 ≠ 0 → vol.Unchanged d d' root) ↔
      vol.AppendRoom img root own name (vol.appendContent img root own name content) := by
  unfold Volume.AppendRoom
  unfold Volume.appendImage Volume.appendBase at h' ⊢
  cases hu : vol.listedSlot img root name with
  | none =>
    rw [hu] at h'
    exact create_atomic_iff hg h hl _ _ h'
  | some u =>
    rw [hu] at h'
    unfold Volume.deleteImage at h' ⊢
    cases ht : vol.lookup img root (encode83Name name) with
    | none =>
      rw [ht] at h'
      exact create_atomic_iff hg h hl _ _ h'
    | some t =>
      rw [ht] at h'
      exact recreate_atomic_iff hg h hl _ _ ht h'

end

/-- Every call returns, and a failure leaves entries, allocation and contents as they
were exactly if there was room in the sense above. -/
theorem failure_unchanged_iff (hg : vol.Geometry) (h : vol.Shows d img) (hl : vol.Layout img root own)
    (call : Call) :
    ∃ r d', vol.exec d call = some (r, d') ∧
      ((r ≠ 0 → vol.Unchanged d d' root) ↔ vol.Room img root own call) := by
  obtain ⟨d', he, h'⟩ := h.exec hg hl call
  refine ⟨_, d', he, ?_⟩
  cases call with
  | create name content => exact create_atomic_iff hg h hl _ content h'
  | write name content =>
    unfold Volume.Room
    dsimp only [Volume.onImage] at h' ⊢
    unfold Volume.writeImage at h' ⊢
    cases ht : vol.lookup img root (encode83Name name) with
    | none =>
      rw [ht] at h'
      exact create_atomic_iff hg h hl _ content h'
    | some t =>
      rw [ht] at h'
      exact rewrite_atomic_iff hg h hl content ht h'
  | delete name =>
    refine iff_of_true ?_ trivial
    dsimp only [Volume.onImage] at h' ⊢
    unfold Volume.deleteImage at h' ⊢
    cases ht : vol.lookup img root (encode83Name name) with
    | none =>
      rw [ht] at h'
      exact fun _ => .of_image hg h h' hl
    | some t => exact fun hz => absurd rfl hz
  | append name content => exact append_atomic_iff hg h hl name content h'
  | mkdir name =>
    refine iff_of_true ?_ trivial
    dsimp only [Volume.onImage] at h' ⊢
    unfold Volume.mkdirImage at h' ⊢
    cases ht : vol.freeSlot img root with
    | none =>
      rw [ht] at h'
      exact fun _ => .of_image hg h h' hl
    | some t => exact fun hz => absurd rfl hz

/-- Two clusters of content with one cluster free. -/
theorem failure_unchanged_iff_small :
    ∃ r d', smallVolume.exec smallDrive (.create [66] (List.replicate 513 0)) = some (r, d') ∧
      ((r ≠ 0 → smallVolume.Unchanged smallDrive d' [2]) ↔
        smallVolume.Room (smallVolume.image smallDrive) [2] smallOwn (.create [66] (List.replicate 513 0))) :=
  failure_unchanged_iff small_geometry small_shows small_layout _

/-- On a well-formed volume, creating that file fails and leaves the last cluster allocated. -/
theorem failed_create_takes_cluster :
    smallVolume.Geometry ∧ smallVolume.Shows smallDrive (smallVolume.image smallDrive) ∧
      smallVolume.Layout (smallVolume.image smallDrive) [2] smallOwn ∧
      ∃ d', smallVolume.createFile smallDrive [66] (List.replicate 513 0) = some (-1, d') ∧
        (smallVolume.image smallDrive).fat 4 = 0 ∧ (smallVolume.image d').fat 4 ≠ 0 ∧
        ¬ smallVolume.Unchanged smallDrive d' [2] := by
  refine ⟨small_geometry, small_shows, small_layout, ?_⟩
  obtain ⟨d', he, hs⟩ := small_shows.createFile small_geometry small_layout [66] (List.replicate 513 0)
  have hresult : (smallVolume.createImage (smallVolume.image smallDrive) [2] (encode83Name [66])
      (List.replicate 513 0)).1 = -1 := by decide +kernel
  have hfree : (smallVolume.image smallDrive).fat 4 = 0 := by decide +kernel
  have htaken : (smallVolume.createImage (smallVolume.image smallDrive) [2] (encode83Name [66])
      (List.replicate 513 0)).2.fat 4 ≠ 0 := by decide +kernel
  rw [hresult] at he
  refine ⟨d', he, hfree, hs.image.symm ▸ htaken, ?_⟩
  exact not_unchanged_of_taken small_shows hs (mem_freeClusters.mpr ⟨by decide, by decide, hfree⟩) htaken

end GeckoOS.Fs.Fat32
