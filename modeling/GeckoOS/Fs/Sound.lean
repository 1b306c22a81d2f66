import GeckoOS.Fs.Isolation
import GeckoOS.Lib.Runs

/-! The calls on volumes of which little is known: the chains of files may run
into each other or in circles, as long as they stay apart from the root
directory. Whatever a call does to the drive is a sequence of writes to the FATs
and to sectors of clusters. -/
namespace GeckoOS.Fs.Fat32
open Lib

/-- Every sector can be read and written. -/
def Drive.Works (d : Drive) : Prop := (∀ lba, d.readFails lba = false) ∧ ∀ lba, d.writeFails lba = false

namespace Volume
variable (vol : Volume)

/-- What `fat32_drive_open` accepts; the boot sector may give any sector size. -/
structure Opened : Prop extends Consistent vol where
  bytes : 0 < vol.bytesPerSector
  cluster : 0 < vol.sectorsPerCluster

/-- A property of drives that every write of the driver keeps. -/
structure Survives (P : Drive → Prop) : Prop where
  fat : ∀ d c v, d.Works → P d → c < vol.fatEntries → P (vol.writeFat d c v).2
  alloc : ∀ d, d.Works → P d → P (vol.allocCluster d).2
  data : ∀ d c s buf, d.Works → P d → vol.InData c s → P (d.put (add32 (vol.clusterToLba c) s) buf)

/-- From `d` such writes lead to a drive that works and shows `img`. -/
structure Leads (d d' : Drive) (img : Image) : Prop where
  works : d'.Works
  image : vol.image d' = img
  survives : ∀ P, vol.Survives P → P d → P d'

/-- The same volume with the sector size of the drive. -/
def sized : Volume := { vol with bytesPerSector := sectorSize }

variable {vol} {d d' d'' : Drive} {img img' : Image} {c s v : Nat}

theorem Opened.geometry (hv : vol.Opened) : vol.sized.Geometry :=
  ⟨⟨hv.fats, hv.entries, hv.apart, hv.lba⟩, rfl, hv.cluster⟩

theorem Opened.clustersNeeded_pos (hv : vol.Opened) (len : Nat) : 0 < vol.clustersNeeded len := by
  have hcs : 0 < vol.clusterSize := Nat.mul_pos hv.bytes hv.cluster
  unfold Volume.clustersNeeded
  split
  · exact Nat.one_pos
  · exact Nat.div_pos (by omega) hcs

theorem shows_sized (vol : Volume) (hw : d.Works) : vol.sized.Shows d (vol.image d) := ⟨hw.1, hw.2, rfl⟩

/-! Only `clustersNeeded` and reading depend on the sector size given. -/

private theorem sized_allocFrom (d : Drive) (j n : Nat) : vol.sized.allocFrom d j n = vol.allocFrom d j n := by
  induction n generalizing j with
  | zero => rfl
  | succ n ih =>
    rw [Volume.allocFrom, Volume.allocFrom, ih]
    rfl

theorem sized_allocCluster (d : Drive) : vol.sized.allocCluster d = vol.allocCluster d := sized_allocFrom d 0 _

private theorem sized_chainLoop (content : List UInt8) (n first prev remaining : Nat) (d : Drive) :
    vol.sized.chainLoop content n first prev remaining d = vol.chainLoop content n first prev remaining d := by
  induction n generalizing first prev remaining d with
  | zero => rfl
  | succ n ih =>
    simp only [Volume.chainLoop, ih, sized_allocCluster]
    rfl

private theorem sized_dirIterate {σ : Type} (cb : DirEntry → Nat → Nat → σ → Bool × σ) (d : Drive)
    (fuel c : Nat)
    (ctx : σ) : vol.sized.dirIterate cb d fuel c ctx = vol.dirIterate cb d fuel c ctx := by
  induction fuel generalizing c ctx with
  | zero => rfl
  | succ fuel ih =>
    simp only [Volume.dirIterate, ih]
    rfl

theorem Chain.sized {fat : Nat → Nat} {root : List Nat} (hr : vol.Chain fat vol.rootCluster root) :
    vol.sized.Chain fat vol.sized.rootCluster root :=
  ⟨hr.linked, hr.inside⟩

theorem Opened.search_free (hv : vol.Opened) (hw : d.Works) {root : List Nat}
    (hr : vol.Chain (vol.image d).fat vol.rootCluster root) :
    vol.search d .findFree =
      some ((vol.freeSlot (vol.image d) root).map fun t => ⟨vol.slotLba t, t.idx, fun _ => 0⟩) := by
  have hsearch := (shows_sized vol hw).search_free hv.geometry hr.sized
  rw [Volume.search, sized_dirIterate] at hsearch
  exact hsearch

namespace Leads

theorem refl (hw : d.Works) : vol.Leads d d (vol.image d) := ⟨hw, rfl, fun _ _ h => h⟩

theorem trans (h : vol.Leads d d' img) (h' : vol.Leads d' d'' img') : vol.Leads d d'' img' :=
  ⟨h'.works, h'.image, fun P hP hp => h'.survives P hP (h.survives P hP hp)⟩

end Leads

section writes
variable (hv : vol.Opened) (hw : d.Works)
include hv hw

theorem leads_writeFat (hc : c < vol.fatEntries) (v : Nat) :
    vol.Leads d (vol.writeFat d c v).2 ((vol.image d).setFat c (v % 2^28)) := by
  have hs := (shows_sized vol hw).writeFat hv.geometry (c := c) hc v
  exact ⟨⟨hs.reads, hs.writes⟩, hs.image, fun P hP hp => hP.fat d c v hw hp hc⟩

/-- The lowest free cluster is taken, if there is one. -/
theorem leads_allocCluster :
    (vol.allocCluster d).1 = 0 ∧ (vol.allocCluster d).2 = d ∨
      (2 ≤ (vol.allocCluster d).1 ∧ (vol.allocCluster d).1 < vol.fatEntries) ∧
        vol.Leads d (vol.allocCluster d).2 ((vol.image d).setFat (vol.allocCluster d).1 clusterEoc) := by
  rcases (shows_sized vol hw).allocCluster_cases hv.geometry with ⟨-, he⟩ | ⟨c, rest, d', hfree, he, hs⟩
  · rw [sized_allocCluster] at he
    rw [he]
    exact .inl ⟨rfl, rfl⟩
  · obtain ⟨h2, hlt, -⟩ := mem_freeClusters.mp (hfree ▸ List.mem_cons_self : c ∈ vol.sized.freeClusters _)
    have hsurv : ∀ P, vol.Survives P → P d → P (vol.allocCluster d).2 := fun P hP hp => hP.alloc d hw hp
    rw [sized_allocCluster] at he
    rw [he] at hsurv ⊢
    exact .inr ⟨⟨h2, hlt⟩, ⟨hs.reads, hs.writes⟩, hs.image, hsurv⟩

theorem leads_put (hd : vol.InData c s) (buf : View) :
    vol.Leads d (d.put (add32 (vol.clusterToLba c) s) buf) ((vol.image d).setData c s buf) := by
  have hs := (shows_sized vol hw).put_data hv.geometry (c := c) (s := s) hd buf
  exact ⟨⟨hs.reads, hs.writes⟩, hs.image, fun P hP hp => hP.data d c s buf hw hp hd⟩

theorem leads_writeDirEntry {t : Slot} (ht : vol.InData t.cluster t.sector) (e : DirEntry) :
    ∃ d', d.writeDirEntry (vol.slotLba t) t.idx e = (0, d') ∧ vol.Leads d d' ((vol.image d).setEntry t e) := by
  have hsh := shows_sized vol hw
  obtain ⟨d', he, hs⟩ := hsh.writeDirEntry hv.geometry (t := t) ht e
  have hrun : d.writeDirEntry (vol.slotLba t) t.idx e = (0, d') := he
  refine ⟨d', hrun, ⟨hs.reads, hs.writes⟩, hs.image, fun P hP hp => ?_⟩
  -- the entry is written by one put of its sector
  have hput : d.put (vol.slotLba t) (storeEntry (d.sectors (vol.slotLba t)) t.idx e) = d' := by
    rw [Drive.writeDirEntry, hsh.read_eq] at hrun
    dsimp only at hrun
    rw [hsh.write_eq] at hrun
    rw [hsh.put_eq]
    exact (Prod.mk.inj hrun).2
  rw [← hput]
  exact hP.data d t.cluster t.sector _ hw hp ht

private theorem survives_fillSectors {P : Drive → Prop} (hP : vol.Survives P) (hp : P d) (content : List UInt8)
    (hc : 2 ≤ c ∧ c < vol.fatEntries) (n s remaining : Nat) (hs : s + n ≤ vol.sectorsPerCluster) :
    (fillSectors content (vol.clusterToLba c) s n remaining d).2.Works ∧
      P (fillSectors content (vol.clusterToLba c) s n remaining d).2 := by
  induction n generalizing s remaining d with
  | zero => exact ⟨hw, hp⟩
  | succ n ih =>
    have hd : vol.InData c s := ⟨hc.1, hc.2, by omega⟩
    rw [Volume.fillSectors]
    exact ih (leads_put hv hw hd _).works (hP.data d c s _ hw hp hd) (s + 1) _ (by omega)

private theorem survives_chainLoop {P : Drive → Prop} (hP : vol.Survives P) (hp : P d) (content : List UInt8)
    (n first prev remaining : Nat) (hprev : prev ≠ 0 → prev < vol.fatEntries) :
    P (vol.chainLoop content n first prev remaining d).2 := by
  induction n generalizing first prev remaining d with
  | zero => exact hp
  | succ n ih =>
    rw [Volume.chainLoop]
    dsimp only
    rcases leads_allocCluster hv hw with ⟨hz, hsame⟩ | ⟨hcl, hl⟩
    · rw [if_pos hz, hsame]
      exact hp
    · have hp' := hl.survives P hP hp
      have hlink : ∀ d₁, (d₁ =
        if prev ≠ 0 then (vol.writeFat (vol.allocCluster d).2 prev (vol.allocCluster d).1).2
          else (vol.allocCluster d).2) → d₁.Works ∧ P d₁ := by
        rintro d₁ rfl
        split
        · next hne =>
          exact ⟨(leads_writeFat hv hl.works (hprev hne) _).works, hP.fat _ _ _ hl.works hp' (hprev hne)⟩
        · exact ⟨hl.works, hp'⟩
      obtain ⟨hw₁, hp₁⟩ := hlink _ rfl
      obtain ⟨hw₂, hp₂⟩ := survives_fillSectors hv hw₁ hP hp₁ content hcl vol.sectorsPerCluster 0
        remaining (by omega)
      rw [if_neg (by omega)]
      exact ih hw₂ hp₂ _ _ _ fun _ => hcl.2

/-- `fat32_write_cluster_chain` fills the first free clusters and links them. -/
theorem leads_writeClusterChain (content : List UInt8) :
    ∃ d', vol.writeClusterChain d content = (vol.newFirst (vol.image d).fat content.length, d') ∧
      vol.Leads d d' (vol.place (vol.image d) (vol.newChain (vol.image d).fat content.length) content) := by
  have hsmall : vol.writeClusterChain d content =
      vol.sized.chainLoop content (vol.clustersNeeded content.length) 0 0 content.length d := by
    rw [sized_chainLoop]
    rfl
  have hfree : vol.sized.freeClusters (vol.image d).fat = [] ++ vol.freeClusters (vol.image d).fat := rfl
  obtain ⟨d', he, hs⟩ := chainLoop_eq hv.geometry content (vol.clustersNeeded content.length) hfree
    (by rw [place_nil]; exact shows_sized vol hw)
  rw [List.headD_nil, List.getLastD_nil, List.length_nil, Nat.zero_mul, Nat.mul_zero, Nat.sub_zero, ← hsmall,
    List.nil_append] at he
  have hhead : ((vol.freeClusters (vol.image d).fat).take (vol.clustersNeeded content.length)).headD 0 =
      (vol.freeClusters (vol.image d).fat).headD 0 := by
    obtain ⟨m, hm⟩ := Nat.exists_eq_add_of_lt (hv.clustersNeeded_pos content.length)
    rw [hm, Nat.zero_add]
    cases vol.freeClusters (vol.image d).fat <;> rfl
  rw [hhead] at he
  refine ⟨d', he, ⟨hs.reads, hs.writes⟩, hs.image, fun P hP hp => ?_⟩
  have hsurv := survives_chainLoop hv hw hP hp content (vol.clustersNeeded content.length) 0 0 content.length
    fun hz => absurd rfl hz
  rw [show vol.chainLoop content _ 0 0 content.length d = _ from he] at hsurv
  exact hsurv

end writes

/-! Freeing a chain of any shape: a cluster that was visited before is free by then. -/

/-- A value at which the walk along a chain ends. -/
def Stops (v : Nat) : Prop := ¬ (2 ≤ v ∧ v < clusterBad)

/-- No value leads behind the FAT. -/
def ValuesInside (vol : Volume) (img : Image) : Prop :=
  ∀ c < vol.fatEntries, img.fat c < vol.fatEntries ∨ clusterBad ≤ img.fat c

private def allocated (vol : Volume) (img : Image) : List Nat :=
  (List.range vol.fatEntries).filter fun c => img.fat c != 0

private theorem allocated_setFat {img : Image} (hc : c < vol.fatEntries) (hne : img.fat c ≠ 0) :
    (allocated vol (img.setFat c 0)).length < (allocated vol img).length := by
  have hmem : c ∈ allocated vol img := by simp [allocated, hc, hne]
  have hsub : (allocated vol (img.setFat c 0)).Sublist ((allocated vol img).erase c) := by
    have hnot : c ∉ allocated vol (img.setFat c 0) := by simp [allocated, Image.setFat]
    rw [← List.erase_of_not_mem hnot]
    apply List.Sublist.erase
    apply List.monotone_filter_right
    intro x hx
    by_cases hxc : x = c
    · subst hxc
      simp [Image.setFat] at hx
    · simpa [Image.setFat, hxc] using hx
  have hlen := hsub.length_le
  rw [List.length_erase_of_mem hmem] at hlen
  have := List.length_pos_of_mem hmem
  omega

private theorem walk_setFat {img : Image} {x : Nat} (h2 : 2 ≤ c ∧ c < clusterBad)
    (h : OnWalk (img.setFat c 0).fat Stops (img.fat c) x) : OnWalk img.fat Stops c x := by
  have hold : OnWalk img.fat Stops (img.fat c) x := h.of_cut fun y => by
    by_cases hy : y = c
    · subst hy
      exact .inr (by simp [Image.setFat, Stops])
    · exact .inl (Function.update_of_ne hy _ _)
  exact hold.head (not_not_intro h2)

private theorem release_cons (img : Image) (c : Nat) (l : List Nat) :
    img.release (c :: l) = (img.setFat c 0).release l := by
  ext x
  · by_cases hx : x = c
    · subst hx
      simp [Image.release, Image.setFat]
    · simp [Image.release, Image.setFat, hx]
  · rfl

/-- `fat32_free_cluster_chain` returns, and frees clusters of the walk only. -/
theorem leads_freeClusterChain (hv : vol.Opened) (hw : d.Works) (hval : ValuesInside vol (vol.image d))
    {first fuel : Nat} (hfirst : first < vol.fatEntries ∨ clusterBad ≤ first)
    (hfuel : (allocated vol (vol.image d)).length + 1 < fuel) :
    ∃ d' l, vol.freeClusterChain d fuel first = some d' ∧ vol.Leads d d' ((vol.image d).release l) ∧
      ∀ c ∈ l, OnWalk (vol.image d).fat Stops first c := by
  induction fuel generalizing d first with
  | zero => omega
  | succ fuel ih =>
    by_cases hin : 2 ≤ first ∧ first < clusterBad
    · have hlt : first < vol.fatEntries := hfirst.resolve_right (by omega)
      have hnext : vol.sized.nextCluster d first = (vol.image d).fat first :=
        (shows_sized vol hw).nextCluster_eq hv.geometry hlt
      have hl := leads_writeFat hv hw hlt 0
      have himg : vol.image (vol.writeFat d first 0).2 = (vol.image d).setFat first 0 := hl.image
      have hval' : ValuesInside vol (vol.image (vol.writeFat d first 0).2) := by
        rw [himg]
        intro c hc
        by_cases hcf : c = first
        · subst hcf
          exact .inl (by simp [Image.setFat]; omega)
        · simp only [Image.setFat, Function.update_of_ne hcf]
          exact hval c hc
      rw [Volume.freeClusterChain, if_pos hin, show vol.nextCluster d first = _ from hnext]
      by_cases hz : (vol.image d).fat first = 0
      · -- the cluster was free: the walk ends behind it
        obtain ⟨fuel, rfl⟩ : ∃ m, fuel = m + 1 := ⟨fuel - 1, by omega⟩
        refine ⟨_, [first], by rw [hz, Volume.freeClusterChain, if_neg (by omega)], ?_, ?_⟩
        · rw [release_cons, release_nil]
          exact hl
        · intro c hc
          rw [List.mem_singleton.mp hc]
          exact .refl (not_not_intro hin)
      · obtain ⟨d', l, he, hrest, hwalk⟩ := ih hl.works hval' (hval first hlt) (by
          have := allocated_setFat hlt hz
          rw [himg]
          omega)
        rw [himg] at hrest hwalk
        refine ⟨d', first :: l, he, ?_, ?_⟩
        · rw [release_cons]
          exact hl.trans hrest
        · intro c hc
          obtain rfl | hc := List.mem_cons.mp hc
          · exact .refl (not_not_intro hin)
          · exact walk_setFat hin (hwalk c hc)
    · refine ⟨d, [], by rw [Volume.freeClusterChain, if_neg hin], ?_, by simp⟩
      rw [release_nil]
      exact .refl hw

/-- The root directory is a chain, and no value of the FAT and no first cluster
of a live entry leads behind the FAT. -/
structure Inside (vol : Volume) (img : Image) (root : List Nat) : Prop where
  rootChain : vol.Chain img.fat vol.rootCluster root
  values : ValuesInside vol img
  firsts : ∀ t ∈ vol.slots root, (img.entry t).isLive → (img.entry t).cluster < vol.fatEntries

/-- Besides, no chain of a live entry runs into the root directory. -/
structure RootApart (vol : Volume) (img : Image) (root : List Nat) : Prop extends vol.Inside img root where
  apart : ∀ t ∈ vol.slots root, (img.entry t).isLive →
    ∀ c ∈ root, ¬ OnWalk img.fat Stops (img.entry t).cluster c

namespace RootApart
variable {img : Image} {root l : List Nat} {t : Slot} {e : DirEntry} (h : vol.RootApart img root)
include h

theorem inData (ht : t ∈ vol.slots root) : vol.InData t.cluster t.sector := by
  obtain ⟨hc, hs, -⟩ := mem_slots.mp ht
  obtain ⟨h2, hn⟩ := h.rootChain.inside _ hc
  exact ⟨h2, hn, hs⟩

/-- Another entry, with a first cluster inside the FAT whose chain is apart from the root. -/
theorem setEntry (t : Slot)
    (he : e.isLive → e.cluster < vol.fatEntries ∧ ∀ c ∈ root, ¬ OnWalk img.fat Stops e.cluster c) :
    vol.RootApart (img.setEntry t e) root := by
  have hentry : ∀ u ∈ vol.slots root, ((img.setEntry t e).entry u).isLive →
      ((img.setEntry t e).entry u).cluster < vol.fatEntries ∧
        ∀ c ∈ root, ¬ OnWalk img.fat Stops ((img.setEntry t e).entry u).cluster c := by
    intro u hu hlive
    by_cases hut : u = t
    · subst hut
      rw [entry_setEntry] at hlive ⊢
      exact he hlive
    · rw [entry_setEntry_of_ne img e hut] at hlive ⊢
      exact ⟨h.firsts u hu hlive, h.apart u hu hlive⟩
  exact ⟨⟨h.rootChain, h.values, fun u hu hlive => (hentry u hu hlive).1⟩, fun u hu hlive =>
    (hentry u hu hlive).2⟩

/-- Freeing clusters outside the root directory. -/
theorem release (hl : ∀ c ∈ l, c ∉ root) : vol.RootApart (img.release l) root := by
  refine ⟨⟨h.rootChain.congr fun c hc => if_neg fun hcl => hl c hcl hc, fun c hc => ?_, h.firsts⟩,
    fun t ht hlive c hc hw => ?_⟩
  · by_cases hcl : c ∈ l
    · exact .inl (by simp only [Image.release, if_pos hcl]; omega)
    · simp only [Image.release, if_neg hcl]
      exact h.values c hc
  · apply h.apart t ht hlive c hc
    apply hw.of_cut
    intro y
    by_cases hy : y ∈ l
    · exact .inr (by simp [Image.release, hy, Stops])
    · exact .inl (if_neg hy)

omit h in
private theorem place_fat_mem (content : List UInt8) (hc : c ∈ l) :
    (vol.place img l content).fat c ∈ l ∨ (vol.place img l content).fat c = clusterEoc :=
  relink_mem hc

/-- Linking and filling free clusters; a chain that starts in one stays in them. -/
theorem place (hl : ∀ c ∈ l, 2 ≤ c ∧ c < vol.fatEntries ∧ img.fat c = 0) (content : List UInt8) :
    vol.RootApart (vol.place img l content) root ∧
      ∀ first ∈ l, ∀ c ∈ root, ¬ OnWalk (vol.place img l content).fat Stops first c := by
  have hroot : ∀ c ∈ root, c ∉ l := fun c hc hcl => h.rootChain.fat_ne_zero hc (hl c hcl).2.2
  have hclosed : ∀ x ∈ {x | x ∈ l}, ¬ Stops ((vol.place img l content).fat x) →
      (vol.place img l content).fat x ∈ {x | x ∈ l} := by
    intro x hx hs
    refine (place_fat_mem content hx).resolve_right fun heoc => hs ?_
    rw [heoc]
    unfold Stops
    decide
  have hentry : ∀ u ∈ vol.slots root, (vol.place img l content).entry u = img.entry u := fun u hu =>
    entry_congr (place_data_of_notMem (hroot _ (mem_slots.mp hu).1))
  refine ⟨⟨⟨h.rootChain.congr fun c hc => place_fat_of_notMem (hroot c hc), fun c hc =>
    ?_, fun u hu hlive => ?_⟩,
    fun u hu hlive c hc hw => ?_⟩, fun first hf c hc hw => ?_⟩
  · by_cases hcl : c ∈ l
    · rcases place_fat_mem content hcl with hin | heoc
      · exact .inl (hl _ hin).2.1
      · rw [heoc]
        exact .inr (by decide)
    · rw [place_fat_of_notMem hcl]
      exact h.values c hc
  · rw [hentry u hu] at hlive ⊢
    exact h.firsts u hu hlive
  · rw [hentry u hu] at hlive hw
    have hchanged : OnWalk img.fat Stops (img.entry u).cluster c ∨ c ∈ {x | x ∈ l} :=
      hw.of_changed hclosed fun y hy => .inl (place_fat_of_notMem hy)
    rcases hchanged with hold | hin
    · exact h.apart u hu hlive c hc hold
    · exact hroot c hc hin
  · exact hroot c hc (hw.mem_of_closed hclosed hf)

end RootApart

/-- A drive that works, with the root directory `root` apart from the chains of its entries. -/
structure Sound (vol : Volume) (root : List Nat) (d : Drive) : Prop where
  works : d.Works
  volume : vol.RootApart (vol.image d) root

/-- From `d` the writes of a call lead to a sound drive with the entries `f`. -/
structure After (vol : Volume) (root : List Nat) (d d' : Drive) (f : Slot → DirEntry) : Prop where
  sound : vol.Sound root d'
  survives : ∀ P, vol.Survives P → P d → P d'
  entry : ∀ u ∈ vol.slots root, (vol.image d').entry u = f u

/-- The entries after a content was to be stored with an entry in the slot `t`:
the same ones if the clusters run out. -/
def storeEntries (vol : Volume) (img : Image) (t : Slot) (content : List UInt8) (entry : Nat → DirEntry) :
    Slot → DirEntry :=
  if content = [] ∨ vol.Fits img.fat content.length then
    Function.update img.entry t (entry (vol.newFirst img.fat content.length))
  else img.entry

/-- The entries after `fat32_create_file`. -/
def createEntries (vol : Volume) (img : Image) (root : List Nat) (raw : RawName) (content : List UInt8) :
    Slot → DirEntry :=
  match vol.freeSlot img root with
  | none => img.entry
  | some t =>
    vol.storeEntries img t content fun first => newEntry raw attrArchive today first (content.length % 2^32)

/-- The entries after `fat32_mkdir`. -/
def mkdirEntries (vol : Volume) (img : Image) (root : List Nat) (raw : RawName) : Slot → DirEntry :=
  match vol.freeSlot img root with
  | none => img.entry
  | some t => Function.update img.entry t (newEntry raw attrDirectory 0 0 0)

/-- The slot that a search by name finds. -/
def found (vol : Volume) (img : Image) (root : List Nat) (raw : RawName) : Option Slot :=
  (vol.visible img root).find? fun t => (img.entry t).rawName == raw

/-- The entries after `fat32_delete_file`. -/
def deleteEntries (vol : Volume) (img : Image) (root : List Nat) (raw : RawName) : Slot → DirEntry :=
  match vol.found img root raw with
  | none => img.entry
  | some t => Function.update img.entry t (img.entry t).deleted

theorem Opened.newFirst_mem (hv : vol.Opened) (fat : Nat → Nat) (len : Nat) :
    vol.newFirst fat len = 0 ∨ vol.newFirst fat len ∈ vol.newChain fat len := by
  have hpos := hv.clustersNeeded_pos len
  unfold newFirst newChain
  split
  · cases hF : vol.freeClusters fat with
    | nil => exact .inl rfl
    | cons x xs =>
      obtain ⟨m, hm⟩ := Nat.exists_eq_add_of_lt hpos
      rw [hm, Nat.zero_add, List.take_succ_cons]
      exact .inr List.mem_cons_self
  · exact .inl rfl

/-- A call that left the entries as they were, and then another. -/
theorem After.of_same {root : List Nat} {f g : Slot → DirEntry} (h : vol.After root d d' (vol.image d).entry)
    (h' : vol.After root d' d'' f) (hf : ∀ u ∈ vol.slots root, f u = g u) : vol.After root d d'' g :=
  ⟨h'.sound, fun P hP hp => h'.survives P hP (h.survives P hP hp), fun u hu => (h'.entry u hu).trans (hf u hu)⟩

namespace Sound
variable {root : List Nat} {t : Slot} {e : DirEntry} (hv : vol.Opened) (h : vol.Sound root d)
include hv h

omit hv in
theorem refl : vol.After root d d (vol.image d).entry := ⟨h, fun _ _ hp => hp, fun _ _ => rfl⟩

theorem writeDirEntry (ht : t ∈ vol.slots root)
    (he : e.isLive → e.cluster < vol.fatEntries ∧ ∀ c ∈ root, ¬ OnWalk (vol.image d).fat Stops e.cluster c) :
    ∃ d', d.writeDirEntry (vol.slotLba t) t.idx e = (0, d') ∧
      vol.After root d d' (Function.update (vol.image d).entry t e) := by
  obtain ⟨d', hd', hl⟩ := leads_writeDirEntry hv h.works (h.volume.inData ht) e
  refine ⟨d', hd', ⟨hl.works, by rw [hl.image]; exact h.volume.setEntry t he⟩, hl.survives, fun u _ => ?_⟩
  rw [hl.image]
  by_cases hut : u = t
  · rw [hut, entry_setEntry, Function.update_self]
  · rw [entry_setEntry_of_ne _ _ hut, Function.update_of_ne hut]

omit hv in
/-- The first cluster of an entry without clusters. -/
private theorem no_walk (ht : t ∈ vol.slots root) (fat : Nat → Nat) :
    0 < vol.fatEntries ∧ ∀ c ∈ root, ¬ OnWalk fat Stops 0 c := by
  obtain ⟨h2, hn, -⟩ := h.volume.inData ht
  exact ⟨by omega, fun c _ hw => hw.not_stop_start (by unfold Stops; decide)⟩

/-- The part that `fat32_create_file` and `fat32_write_file` have in common. -/
theorem store (ht : t ∈ vol.slots root) (content : List UInt8) (entry : Nat → DirEntry)
    (hentry : ∀ first < 2^32, (entry first).cluster = first) :
    ∃ z d', (let (first, d) := vol.writeClusterChain d content
      if first = 0 ∧ 0 < content.length then some (-1, d)
      else some (d.writeDirEntry (vol.slotLba t) t.idx (entry first))) = some (z, d') ∧
      vol.After root d d' (vol.storeEntries (vol.image d) t content entry) := by
  obtain ⟨d₁, hd₁, hl⟩ := leads_writeClusterChain hv h.works content
  have hfree : ∀ c ∈ vol.newChain (vol.image d).fat content.length,
      2 ≤ c ∧ c < vol.fatEntries ∧ (vol.image d).fat c = 0 := fun c hc => mem_newChain hc
  obtain ⟨hplace, hwalk⟩ := h.volume.place hfree content
  have hs₁ : vol.Sound root d₁ := ⟨hl.works, by rw [hl.image]; exact hplace⟩
  have hsame : ∀ u ∈ vol.slots root, (vol.image d₁).entry u = (vol.image d).entry u := by
    intro u hu
    rw [hl.image]
    apply entry_congr
    apply place_data_of_notMem
    exact fun hc => h.volume.rootChain.fat_ne_zero (mem_slots.mp hu).1 (hfree _ hc).2.2
  have hfails : vol.newFirst (vol.image d).fat content.length = 0 ∧ 0 < content.length ↔
      ¬ (content = [] ∨ vol.Fits (vol.image d).fat content.length) := by
    rw [newFirst_eq_zero_of_pos (hv.clustersNeeded_pos _), List.length_pos_iff]
    tauto
  rw [hd₁]
  simp only [hfails, storeEntries]
  by_cases hfit : content = [] ∨ vol.Fits (vol.image d).fat content.length
  · have hlive : (entry (vol.newFirst (vol.image d).fat content.length)).cluster < vol.fatEntries ∧ ∀ c ∈ root,
        ¬ OnWalk (vol.image d₁).fat Stops
          (entry (vol.newFirst (vol.image d).fat content.length)).cluster c := by
      have hent := hv.entries
      rcases hv.newFirst_mem (vol.image d).fat content.length with hz | hin
      · rw [hz, hentry 0 (by decide)]
        exact no_walk h ht _
      · obtain ⟨-, hn, -⟩ := hfree _ hin
        rw [hentry _ (by unfold clusterBad at hent; omega), hl.image]
        exact ⟨hn, hwalk _ hin⟩
    obtain ⟨d₂, hd₂, ha⟩ := hs₁.writeDirEntry hv ht fun _ => hlive
    rw [if_neg (not_not_intro hfit), if_pos hfit, hd₂]
    refine ⟨0, d₂, rfl, ha.sound, fun P hP hp => ha.survives P hP (hl.survives P hP hp), fun u hu => ?_⟩
    rw [ha.entry u hu, Function.update_apply, Function.update_apply, hsame u hu]
  · rw [if_pos hfit, if_neg hfit]
    exact ⟨-1, d₁, rfl, hs₁, hl.survives, hsame⟩

theorem search_free :
    vol.search d .findFree =
      some ((vol.freeSlot (vol.image d) root).map fun t => ⟨vol.slotLba t, t.idx, fun _ => 0⟩) :=
  hv.search_free h.works h.volume.rootChain

theorem search_visible (raw : RawName) :
    vol.search d (.findMatch raw) =
      some ((vol.found (vol.image d) root raw).map fun t => ⟨vol.slotLba t, t.idx, (vol.image d).entry t⟩) := by
  have hr := h.volume.rootChain.sized
  have hsearch := (shows_sized vol h.works).search_visible hv.geometry hr raw
  rw [Volume.search, sized_dirIterate] at hsearch
  exact hsearch

theorem getRootEntries :
    vol.getRootEntries d =
      some ((vol.visible (vol.image d) root).map fun t => ((vol.image d).entry t).toFsEntry) := by
  have hr := h.volume.rootChain.sized
  have hlist := (shows_sized vol h.works).rootEntries_visible hv.geometry hr
  unfold Volume.getRootEntries at hlist ⊢
  simp only [sized_dirIterate] at hlist
  exact hlist

theorem createFile (name content : List UInt8) :
    ∃ z d', vol.createFile d name content = some (z, d') ∧
      vol.After root d d' (vol.createEntries (vol.image d) root (encode83Name name) content) := by
  unfold Volume.createFile createEntries
  rw [h.search_free hv]
  cases ht : vol.freeSlot (vol.image d) root with
  | none => exact ⟨_, _, rfl, h.refl⟩
  | some t => exact h.store hv (freeSlot_spec ht).1 content _ fun first hf => newEntry_cluster _ _ _ hf

theorem mkdir (name : List UInt8) :
    ∃ z d', vol.mkdir d name = some (z, d') ∧
      vol.After root d d' (vol.mkdirEntries (vol.image d) root (encode83Name name)) := by
  unfold Volume.mkdir mkdirEntries
  rw [h.search_free hv]
  cases ht : vol.freeSlot (vol.image d) root with
  | none => exact ⟨_, _, rfl, h.refl⟩
  | some t =>
    have hmem := (freeSlot_spec ht).1
    obtain ⟨d', hd', ha⟩ :=
      h.writeDirEntry hv (e := newEntry (encode83Name name) attrDirectory 0 0 0) hmem fun _ => by
      rw [newEntry_cluster _ _ _ (by decide)]
      exact no_walk h hmem _
    exact ⟨0, d', congrArg some hd', ha⟩

/-- The chain of a live entry is freed; it has no cluster of the root directory. -/
theorem freeChain (ht : t ∈ vol.slots root) (hlive : ((vol.image d).entry t).isLive) :
    ∃ d', vol.freeClusterChain d chainFuel ((vol.image d).entry t).cluster = some d' ∧
      vol.After root d d' (vol.image d).entry := by
  have hent := hv.entries
  have hfuel : (allocated vol (vol.image d)).length + 1 < chainFuel := by
    have hle : (allocated vol (vol.image d)).length ≤ (List.range vol.fatEntries).length :=
      List.length_filter_le _ _
    rw [List.length_range] at hle
    unfold clusterBad at hent
    unfold chainFuel
    omega
  obtain ⟨d', l, he, hl, hwalk⟩ := leads_freeClusterChain hv h.works h.volume.values
    (.inl (h.volume.firsts t ht hlive)) hfuel
  refine ⟨d', he, ⟨hl.works, ?_⟩, hl.survives, fun u _ => by rw [hl.image]; rfl⟩
  rw [hl.image]
  exact h.volume.release fun c hc hcr => h.volume.apart t ht hlive c hcr (hwalk c hc)

theorem deleteFile (name : List UInt8) :
    ∃ z d', vol.deleteFile d name = some (z, d') ∧
      vol.After root d d' (vol.deleteEntries (vol.image d) root (encode83Name name)) := by
  unfold Volume.deleteFile deleteEntries
  rw [h.search_visible hv]
  cases ht : vol.found (vol.image d) root (encode83Name name) with
  | none => exact ⟨_, _, rfl, h.refl⟩
  | some t =>
    obtain ⟨hmem, hlive⟩ := mem_visible (List.mem_of_find?_eq_some ht)
    obtain ⟨d₁, he, ha⟩ := h.freeChain hv hmem hlive
    obtain ⟨d₂, hd₂, ha₂⟩ := ha.sound.writeDirEntry hv (e := ((vol.image d).entry t).deleted) hmem fun hl => by
      simp at hl
    simp only [Option.map_some, he, hd₂]
    refine ⟨0, d₂, rfl, ha.of_same ha₂ fun u hu => ?_⟩
    rw [Function.update_apply, Function.update_apply, ha.entry u hu]

/-- Writing to a file that is found puts an entry of the same name back, or leaves the old one. -/
theorem writeFile (name content : List UInt8) :
    ∃ z d', vol.writeFile d name content = some (z, d') ∧
      match vol.found (vol.image d) root (encode83Name name) with
      | none => vol.After root d d' (vol.createEntries (vol.image d) root (encode83Name name) content)
      | some t => vol.After root d d' (vol.image d).entry ∨ ∃ first, vol.After root d d'
          (Function.update (vol.image d).entry t
            (((vol.image d).entry t).rewrite first (content.length % 2^32))) := by
  unfold Volume.writeFile
  rw [h.search_visible hv]
  cases ht : vol.found (vol.image d) root (encode83Name name) with
  | none => exact h.createFile hv name content
  | some t =>
    obtain ⟨hmem, hlive⟩ := mem_visible (List.mem_of_find?_eq_some ht)
    obtain ⟨d₁, he, ha⟩ := h.freeChain hv hmem hlive
    obtain ⟨z, d₂, hd₂, ha₂⟩ := ha.sound.store hv hmem content
      (fun first => ((vol.image d).entry t).rewrite first (content.length % 2^32)) fun first hf =>
        rewrite_cluster hf
    simp only [Option.map_some, he]
    refine ⟨z, d₂, hd₂, ?_⟩
    unfold storeEntries at ha₂
    split at ha₂
    · refine .inr ⟨vol.newFirst (vol.image d₁).fat content.length, ha.of_same ha₂ fun u hu => ?_⟩
      rw [Function.update_apply, Function.update_apply, ha.entry u hu]
    · exact .inl (ha.of_same ha₂ ha.entry)

/-- The file that `fat32_append_file` finds in the listing. -/
theorem appendFile (name content : List UInt8) :
    ∃ z d', vol.appendFile d name content = some (z, d') ∧
      match findListed name ((vol.visible (vol.image d) root).map fun t =>
        ((vol.image d).entry t).toFsEntry) with
      | none =>
        vol.After root d d' (vol.createEntries (vol.image d) root (encode83Name name) (appendBuf [] content))
      | some _ => ∃ d₁ text, vol.After root d d₁ (vol.deleteEntries (vol.image d) root (encode83Name name)) ∧
          vol.After root d₁ d' (vol.createEntries (vol.image d₁) root (encode83Name name) text) := by
  unfold Volume.appendFile
  rw [h.getRootEntries hv, Option.bind_eq_bind, Option.bind_some]
  cases findListed name ((vol.visible (vol.image d) root).map fun t => ((vol.image d).entry t).toFsEntry) with
  | none => exact h.createFile hv name _
  | some f =>
    obtain ⟨z, d₁, hd₁, ha₁⟩ := h.deleteFile hv name
    obtain ⟨z', d₂, hd₂, ha₂⟩ := ha₁.sound.createFile hv name (appendBuf (vol.readOld d f 4000 0 []) content)
    dsimp only
    rw [hd₁, Option.bind_eq_bind, Option.bind_some]
    exact ⟨z', d₂, hd₂, d₁, _, ha₁, ha₂⟩

/-- Every call returns, on a sound drive again, and does nothing but the driver's writes. -/
theorem exec (call : Call) :
    ∃ z d', vol.exec d call = some (z, d') ∧ vol.Sound root d' ∧ ∀ P, vol.Survives P → P d → P d' := by
  cases call with
  | create name content =>
    obtain ⟨z, d', he, ha⟩ := h.createFile hv name content
    exact ⟨z, d', he, ha.sound, ha.survives⟩
  | write name content =>
    obtain ⟨z, d', he, ha⟩ := h.writeFile hv name content
    refine ⟨z, d', he, ?_⟩
    cases hf : vol.found (vol.image d) root (encode83Name name) with
    | none =>
      rw [hf] at ha
      exact ⟨ha.sound, ha.survives⟩
    | some t =>
      rw [hf] at ha
      obtain ha | ⟨first, ha⟩ := ha
      · exact ⟨ha.sound, ha.survives⟩
      · exact ⟨ha.sound, ha.survives⟩
  | delete name =>
    obtain ⟨z, d', he, ha⟩ := h.deleteFile hv name
    exact ⟨z, d', he, ha.sound, ha.survives⟩
  | append name content =>
    obtain ⟨z, d', he, ha⟩ := h.appendFile hv name content
    refine ⟨z, d', he, ?_⟩
    split at ha
    · exact ⟨ha.sound, ha.survives⟩
    · obtain ⟨d₁, text, ha₁, ha₂⟩ := ha
      exact ⟨ha₂.sound, fun P hP hp => ha₂.survives P hP (ha₁.survives P hP hp)⟩
  | mkdir name =>
    obtain ⟨z, d', he, ha⟩ := h.mkdir hv name
    exact ⟨z, d', he, ha.sound, ha.survives⟩

end Sound

end Volume

/-! The small volume is such a volume. -/

theorem small_opened : smallVolume.Opened where
  bytes := by decide
  cluster := by decide
  fats := .inr rfl
  entries := by decide
  apart := by decide
  lba := small_geometry.lba

theorem small_works : smallDrive.Works := ⟨fun _ => rfl, fun _ => rfl⟩

theorem small_rootApart : smallVolume.RootApart (smallVolume.image smallDrive) [2] where
  rootChain := small_layout.rootChain
  values := by
    change ∀ c < 128, _
    decide +kernel
  firsts := by
    intro t ht hlive
    obtain rfl := small_only t ht hlive
    decide +kernel
  apart := by
    intro t ht hlive c hc hw
    obtain rfl := small_only t ht hlive
    have hfirst : ((smallVolume.image smallDrive).entry smallSlot).cluster = 3 := by decide +kernel
    have hlinked : Linked (smallVolume.image smallDrive).fat Volume.Stops 3 [3] :=
      ⟨rfl, by unfold Volume.Stops; decide, by show ¬ _; decide +kernel⟩
    rw [hfirst] at hw
    obtain rfl := List.mem_singleton.mp (hlinked.onWalk_iff.mp hw)
    simp at hc

end GeckoOS.Fs.Fat32
