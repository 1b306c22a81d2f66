import GeckoOS.Fs.Chains
import Mathlib.Data.List.TakeWhile

/-! The root directory as a list of slots, and what the searches and listings of
the driver find there. -/
namespace GeckoOS.Fs.Fat32
open Lib

/-- Where a directory entry lies. -/
structure Slot where
  cluster : Nat
  sector : Nat
  idx : Nat
  deriving DecidableEq

namespace Image

def entry (img : Image) (t : Slot) : DirEntry := entryAt (img.data t.cluster t.sector) t.idx

def setEntry (img : Image) (t : Slot) (e : DirEntry) : Image :=
  img.setData t.cluster t.sector (storeEntry (img.data t.cluster t.sector) t.idx e)

end Image

/-- The slots of a directory with the chain `root`, in the order of the walk. -/
def Volume.slots (vol : Volume) (root : List Nat) : List Slot :=
  root.flatMap fun c => (List.range vol.sectorsPerCluster).flatMap fun s =>
    (List.range slotsPerSector).map fun e => ⟨c, s, e⟩

/-- Visible to lookups and listings. -/
def DirEntry.isLive (e : DirEntry) : Bool := !e.isEnd && !e.isFree && e.isPlain

theorem isEnd_of_isLive {e : DirEntry} (h : e.isLive) : e.isEnd = false := by
  simp only [DirEntry.isLive, Bool.and_eq_true, Bool.not_eq_eq_eq_not, Bool.not_true] at h
  exact h.1.1

variable {vol : Volume} {d : Drive} {img : Image} {root : List Nat} {t u : Slot}

theorem mem_slots : t ∈ vol.slots root ↔
    t.cluster ∈ root ∧ t.sector < vol.sectorsPerCluster ∧ t.idx < slotsPerSector := by
  simp only [Volume.slots, List.mem_flatMap, List.mem_map, List.mem_range]
  constructor
  · rintro ⟨c, hc, s, hs, e, he, rfl⟩
    exact ⟨hc, hs, he⟩
  · rintro ⟨hc, hs, he⟩
    exact ⟨_, hc, _, hs, _, he, rfl⟩

theorem slots_nodup (h : root.Nodup) : (vol.slots root).Nodup := by
  unfold Volume.slots
  refine List.nodup_flatMap.mpr ⟨fun c _ => List.nodup_flatMap.mpr ⟨fun s _ => ?_, ?_⟩, ?_⟩
  · exact List.nodup_range.map fun a b hab => by simpa using hab
  · refine List.nodup_range.imp fun {a b} hab => ?_
    simp only [Function.onFun, List.disjoint_left, List.mem_map]
    rintro x ⟨e, -, rfl⟩ ⟨e', -, he⟩
    simp only [Slot.mk.injEq] at he
    omega
  · refine h.imp fun {a b} hab => ?_
    simp only [Function.onFun, List.disjoint_left, List.mem_flatMap, List.mem_map]
    rintro x ⟨s, -, e, -, rfl⟩ ⟨s', -, e', -, he⟩
    simp only [Slot.mk.injEq] at he
    omega

@[simp] theorem entryAt_storeEntry (buf : View) (e : Nat) (x : DirEntry) :
    entryAt (storeEntry buf e x) e = x := by
  funext k
  have hk := k.isLt
  simp [entryAt, storeEntry]

theorem entryAt_storeEntry_of_ne (buf : View) {e e' : Nat} (x : DirEntry) (h : e' ≠ e) :
    entryAt (storeEntry buf e x) e' = entryAt buf e' := by
  funext k
  have hk := k.isLt
  unfold entryAt storeEntry
  exact dif_neg (by omega)

@[simp] theorem entry_setEntry (img : Image) (t : Slot) (e : DirEntry) : (img.setEntry t e).entry t = e := by
  simp [Image.entry, Image.setEntry, Image.setData]

theorem entry_setEntry_of_ne (img : Image) (e : DirEntry) (h : u ≠ t) :
    (img.setEntry t e).entry u = img.entry u := by
  dsimp only [Image.entry, Image.setEntry, Image.setData]
  by_cases hcs : u.cluster = t.cluster ∧ u.sector = t.sector
  · have hidx : u.idx ≠ t.idx := fun hi => h (by cases u; cases t; simp_all)
    rw [if_pos hcs, entryAt_storeEntry_of_ne _ _ hidx, hcs.1, hcs.2]
  · rw [if_neg hcs]

/-- The address of a slot, as the callbacks see it. -/
def Volume.slotLba (vol : Volume) (t : Slot) : Nat := add32 (vol.clusterToLba t.cluster) t.sector

section iterate
variable {σ : Type} (cb : DirEntry → Nat → Nat → σ → Bool × σ)

/-- One call of a callback. -/
def visit (vol : Volume) (img : Image) (ctx : σ) (t : Slot) : Bool × σ :=
  cb (img.entry t) (vol.slotLba t) t.idx ctx

private theorem iterateCluster_eq (hg : vol.Geometry) (h : vol.Shows d img) {c : Nat}
    (hc : 2 ≤ c ∧ c < vol.fatEntries) (ctx : σ) :
    vol.iterateCluster cb d (vol.clusterToLba c) ctx = scan (visit cb vol img) ctx (vol.slots [c]) := by
  have hslots : vol.slots [c] = (List.range vol.sectorsPerCluster).flatMap fun s =>
      (List.range slotsPerSector).map fun e => ⟨c, s, e⟩ := by simp [Volume.slots]
  rw [hslots, ← scan_scan, Volume.iterateCluster]
  apply scan_congr
  intro ctx s hs
  rw [h.read_data hg ⟨hc.1, hc.2, List.mem_range.mp hs⟩, ← scan_map]
  rfl

private theorem dirIterate_scan (hg : vol.Geometry) (h : vol.Shows d img) {first fuel : Nat}
    (hr : vol.Chain img.fat first root) (hf : root.length < fuel) (ctx : σ) :
    vol.dirIterate cb d fuel first ctx = some (scan (visit cb vol img) ctx (vol.slots root)).2 := by
  have hent := hg.entries
  induction root generalizing first fuel ctx with
  | nil =>
    obtain ⟨fuel, rfl⟩ : ∃ m, fuel = m + 1 := ⟨fuel - 1, by omega⟩
    have hstop : clusterEoc ≤ first := hr.linked
    rw [Volume.dirIterate, if_neg (by unfold clusterEoc at hstop; unfold clusterBad; omega)]
    rfl
  | cons c root ih =>
    obtain ⟨fuel, rfl⟩ : ∃ m, fuel = m + 1 := ⟨fuel - 1, by omega⟩
    obtain ⟨rfl, htail⟩ := hr.tail rfl
    have hin := hr.inside first (by simp)
    have hslots : vol.slots (first :: root) = vol.slots [first] ++ vol.slots root := by
      simp [Volume.slots]
    rw [Volume.dirIterate, if_pos ⟨hin.1, by omega⟩, iterateCluster_eq cb hg h hin, hslots, scan_append]
    rcases scan (visit cb vol img) ctx (vol.slots [first]) with ⟨_ | _, ctx'⟩
    · rw [h.nextCluster_eq hg hin.2]
      exact ih htail (by simpa using hf) ctx'
    · rfl

/-- `fat32_dir_iterate` on the root directory calls back on its slots in order. -/
theorem Volume.Shows.dirIterate (hg : vol.Geometry) (h : vol.Shows d img)
    (hr : vol.Chain img.fat vol.rootCluster root) (ctx : σ) :
    vol.dirIterate cb d chainFuel vol.rootCluster ctx =
      some (scan (visit cb vol img) ctx (vol.slots root)).2 := by
  have hent := hg.entries
  have hle := hr.length_le
  refine dirIterate_scan cb hg h hr ?_ ctx
  unfold clusterBad at hent
  unfold chainFuel
  omega

end iterate

/-- The first slot that a new entry can take. -/
def Volume.freeSlot (vol : Volume) (img : Image) (root : List Nat) : Option Slot :=
  (vol.slots root).find? fun t => (img.entry t).isFree || (img.entry t).isEnd

/-- The live slot of a name. -/
def Volume.lookup (vol : Volume) (img : Image) (root : List Nat) (raw : RawName) : Option Slot :=
  (vol.slots root).find? fun t => (img.entry t).isLive && (img.entry t).rawName == raw

/-- After an END entry there are only END entries. -/
def Volume.EndsOnce (vol : Volume) (img : Image) (root : List Nat) : Prop :=
  (vol.slots root).Pairwise fun t u => (img.entry t).isEnd → (img.entry u).isEnd

theorem freeSlot_spec (h : vol.freeSlot img root = some t) :
    t ∈ vol.slots root ∧ ((img.entry t).isFree ∨ (img.entry t).isEnd) :=
  ⟨List.mem_of_find?_eq_some h, by simpa using List.find?_some h⟩

theorem lookup_spec {raw : RawName} (h : vol.lookup img root raw = some t) :
    t ∈ vol.slots root ∧ (img.entry t).isLive ∧ (img.entry t).rawName = raw :=
  ⟨List.mem_of_find?_eq_some h, by simpa using List.find?_some h⟩

theorem lookup_none {raw : RawName} (h : vol.lookup img root raw = none) (ht : t ∈ vol.slots root)
    (hlive : (img.entry t).isLive) : (img.entry t).rawName ≠ raw := by
  simpa [hlive] using List.find?_eq_none.mp h t ht

private theorem scan_findFree (ts : List Slot) :
    (scan (visit (dirSearchCb .findFree) vol img) none ts).2 =
      (ts.find? fun t => (img.entry t).isFree || (img.entry t).isEnd).map
        fun t => ⟨vol.slotLba t, t.idx, fun _ => 0⟩ := by
  induction ts with
  | nil => rfl
  | cons t ts ih =>
    rw [scan_cons, List.find?_cons]
    by_cases h : ((img.entry t).isFree || (img.entry t).isEnd) = true
    · simp [visit, dirSearchCb, h]
    · simpa [visit, dirSearchCb, h] using ih

/-- The live slots in front of the first END entry: what lookups and listings go through. -/
def Volume.visible (vol : Volume) (img : Image) (root : List Nat) : List Slot :=
  ((vol.slots root).takeWhile fun t => !(img.entry t).isEnd).filter fun t => (img.entry t).isLive

theorem mem_visible (h : t ∈ vol.visible img root) : t ∈ vol.slots root ∧ (img.entry t).isLive := by
  obtain ⟨hmem, hlive⟩ := List.mem_filter.mp h
  exact ⟨(List.takeWhile_sublist _).subset hmem, hlive⟩

theorem visible_eq (hend : vol.EndsOnce img root) :
    vol.visible img root = (vol.slots root).filter fun t => (img.entry t).isLive := by
  unfold Volume.visible
  unfold Volume.EndsOnce at hend
  generalize vol.slots root = ts at hend ⊢
  induction ts with
  | nil => rfl
  | cons t ts ih =>
    obtain ⟨hfirst, hrest⟩ := List.pairwise_cons.mp hend
    by_cases he : (img.entry t).isEnd = true
    · rw [List.takeWhile_cons_of_neg (by simp [he]), List.filter_nil, eq_comm, List.filter_eq_nil_iff]
      intro u hu
      rcases List.mem_cons.mp hu with rfl | hu
      · simp [DirEntry.isLive, he]
      · simp [DirEntry.isLive, hfirst u hu he]
    · rw [List.takeWhile_cons_of_pos (by simp [he]), List.filter_cons, List.filter_cons, ih hrest]

/-- A callback that stops at an END entry sees nothing behind it. -/
private theorem scan_until_end {σ : Type} {cb : DirEntry → Nat → Nat → σ → Bool × σ}
    (hcb : ∀ e lba idx ctx, e.isEnd → cb e lba idx ctx = (true, ctx)) (ts : List Slot) (ctx : σ) :
    (scan (visit cb vol img) ctx ts).2 =
      (scan (visit cb vol img) ctx (ts.takeWhile fun t => !(img.entry t).isEnd)).2 := by
  induction ts generalizing ctx with
  | nil => rfl
  | cons t ts ih =>
    by_cases he : (img.entry t).isEnd = true
    · rw [List.takeWhile_cons_of_neg (by simp [he]), scan_cons, visit, hcb _ _ _ _ he]
      rfl
    · rw [List.takeWhile_cons_of_pos (by simp [he]), scan_cons, scan_cons, apply_ite Prod.snd,
        apply_ite Prod.snd, ih]

private theorem not_end_of_mem {ts : List Slot} (h : t ∈ ts.takeWhile fun t => !(img.entry t).isEnd) :
    (img.entry t).isEnd = false := by
  simpa using List.mem_takeWhile_imp h

private theorem scan_findMatch (raw : RawName) (ts : List Slot) (hend : ∀ t ∈ ts, (img.entry t).isEnd = false) :
    (scan (visit (dirSearchCb (.findMatch raw)) vol img) none ts).2 =
      (ts.find? fun t => (img.entry t).isLive && (img.entry t).rawName == raw).map
        fun t => ⟨vol.slotLba t, t.idx, img.entry t⟩ := by
  induction ts with
  | nil => rfl
  | cons t ts ih =>
    obtain ⟨he, hrest⟩ := List.forall_mem_cons.mp hend
    rw [scan_cons, List.find?_cons]
    by_cases hf : (img.entry t).isFree = true
    · simpa [visit, dirSearchCb, DirEntry.isLive, he, hf] using ih hrest
    · by_cases hp : (img.entry t).isPlain = true
      · by_cases hn : (img.entry t).rawName = raw
        · simp [visit, dirSearchCb, DirEntry.isLive, he, hf, hp, hn]
        · rw [beq_eq_false_iff_ne.mpr hn, Bool.and_false]
          simpa [visit, dirSearchCb, he, hf, hp, hn] using ih hrest
      · simpa [visit, dirSearchCb, DirEntry.isLive, he, hf, hp] using ih hrest

namespace Volume.Shows
variable (hg : vol.Geometry) (h : vol.Shows d img) (hr : vol.Chain img.fat vol.rootCluster root)
include hg h hr

theorem search_free :
    vol.search d .findFree = some ((vol.freeSlot img root).map fun t =>
      ⟨vol.slotLba t, t.idx, fun _ => 0⟩) := by
  rw [Volume.search, h.dirIterate _ hg hr, scan_findFree]
  rfl

/-- A search by name finds the first visible entry of that name. -/
theorem search_visible (raw : RawName) :
    vol.search d (.findMatch raw) = some (((vol.visible img root).find? fun t =>
      (img.entry t).rawName == raw).map
      fun t => ⟨vol.slotLba t, t.idx, img.entry t⟩) := by
  rw [Volume.search, h.dirIterate _ hg hr, scan_until_end (fun e lba idx ctx he => by simp [dirSearchCb, he]),
    scan_findMatch raw _ fun t ht => not_end_of_mem ht, Volume.visible, List.find?_filter]
  simp only [Bool.decide_and, Bool.decide_eq_true]

theorem search_match (hend : vol.EndsOnce img root) (raw : RawName) :
    vol.search d (.findMatch raw) =
      some ((vol.lookup img root raw).map fun t => ⟨vol.slotLba t, t.idx, img.entry t⟩) := by
  rw [h.search_visible hg hr, visible_eq hend, List.find?_filter]
  simp only [Bool.decide_and, Bool.decide_eq_true]
  rfl

omit hr in
/-- Putting an entry into a slot always works. -/
theorem writeDirEntry (ht : vol.InData t.cluster t.sector) (e : DirEntry) :
    ∃ d', d.writeDirEntry (vol.slotLba t) t.idx e = (0, d') ∧ vol.Shows d' (img.setEntry t e) := by
  unfold Drive.writeDirEntry Volume.slotLba
  rw [h.read_data hg ht]
  dsimp only
  rw [h.write_eq, hg.clusterToLba_eq ht]
  exact ⟨_, rfl, h.update (by rw [hg.image_data ht, h.image]; rfl)⟩

end Volume.Shows

/-- The listing of the root directory. -/
def Volume.listing (vol : Volume) (img : Image) (root : List Nat) : List FsEntry :=
  ((vol.slots root).filter fun t => (img.entry t).isLive).map fun t => (img.entry t).toFsEntry

private theorem scan_count (ts : List Slot) (n : Nat) (hend : ∀ t ∈ ts, (img.entry t).isEnd = false) :
    (scan (visit enumCountCb vol img) n ts).2 = n + (ts.filter fun t => (img.entry t).isLive).length := by
  induction ts generalizing n with
  | nil => rfl
  | cons t ts ih =>
    obtain ⟨he, hrest⟩ := List.forall_mem_cons.mp hend
    rw [scan_cons]
    by_cases hl : (img.entry t).isLive = true
    · have hskip : ((img.entry t).isFree || !(img.entry t).isPlain) = false := by
        simp_all [DirEntry.isLive]
      simp only [visit, enumCountCb, he, hskip, hl, List.filter_cons_of_pos, List.length_cons]
      simpa [Nat.add_assoc, Nat.add_comm 1] using ih (n + 1) hrest
    · have hskip : ((img.entry t).isFree || !(img.entry t).isPlain) = true := by
        cases hf : (img.entry t).isFree <;> simp_all [DirEntry.isLive]
      simpa [visit, enumCountCb, he, hskip, hl] using ih n hrest

private theorem scan_fill (ts : List Slot) (acc : List FsEntry) (hend : ∀ t ∈ ts, (img.entry t).isEnd = false) :
    (scan (visit enumFillCb vol img) acc ts).2 =
      acc ++ (ts.filter fun t => (img.entry t).isLive).map fun t => (img.entry t).toFsEntry := by
  induction ts generalizing acc with
  | nil => simp [scan]
  | cons t ts ih =>
    obtain ⟨he, hrest⟩ := List.forall_mem_cons.mp hend
    rw [scan_cons]
    by_cases hl : (img.entry t).isLive = true
    · have hskip : ((img.entry t).isFree || !(img.entry t).isPlain) = false := by
        simp_all [DirEntry.isLive]
      simpa [visit, enumFillCb, he, hskip, hl] using ih (acc ++ [(img.entry t).toFsEntry]) hrest
    · have hskip : ((img.entry t).isFree || !(img.entry t).isPlain) = true := by
        cases hf : (img.entry t).isFree <;> simp_all [DirEntry.isLive]
      simpa [visit, enumFillCb, he, hskip, hl] using ih acc hrest

/-- `fat32_get_root_entries` lists the visible entries in order. -/
theorem Volume.Shows.rootEntries_visible (hg : vol.Geometry) (h : vol.Shows d img)
    (hr : vol.Chain img.fat vol.rootCluster root) :
    vol.getRootEntries d = some ((vol.visible img root).map fun t => (img.entry t).toFsEntry) := by
  have hcount : (scan (visit enumCountCb vol img) 0 (vol.slots root)).2 =
    0 + (vol.visible img root).length := by
    rw [scan_until_end (fun e lba idx ctx he => by simp [enumCountCb, he]), scan_count _ _ fun t ht =>
      not_end_of_mem ht]
    rfl
  have hfill : (scan (visit enumFillCb vol img) [] (vol.slots root)).2 =
      [] ++ (vol.visible img root).map fun t => (img.entry t).toFsEntry := by
    rw [scan_until_end (fun e lba idx ctx he => by simp [enumFillCb, he]), scan_fill _ _ fun t ht =>
      not_end_of_mem ht]
    rfl
  unfold Volume.getRootEntries
  rw [h.dirIterate _ hg hr, h.dirIterate _ hg hr, hcount, hfill]
  dsimp only [Option.bind_eq_bind, Option.bind_some]
  split
  · next hz =>
    have hnil : vol.visible img root = [] := by
      rw [← List.length_eq_zero_iff]
      omega
    simp [hnil]
  · rfl

theorem Volume.Shows.getRootEntries (hg : vol.Geometry) (h : vol.Shows d img)
    (hr : vol.Chain img.fat vol.rootCluster root) (hend : vol.EndsOnce img root) :
    vol.getRootEntries d = some (vol.listing img root) := by
  rw [h.rootEntries_visible hg hr, visible_eq hend]
  rfl

end GeckoOS.Fs.Fat32
