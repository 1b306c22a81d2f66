import GeckoOS.Fs.Isolation
import GeckoOS.Fs.Names
import GeckoOS.Lib.Runs

/-! The allocation invariant: every allocated cluster belongs to exactly one chain,
and every file has as many clusters as its size needs. Successful calls keep it. -/
namespace GeckoOS.Fs.Fat32
open Lib

/-- A layout in which files have chains of the right length, and in which every
allocated cluster is in a chain or one of the foreign clusters `R`. -/
structure Volume.Exact (vol : Volume) (img : Image) (root : List Nat) (own : Slot → List Nat)
  (R : Set Nat) : Prop
    extends vol.Layout img root own where
  length : ∀ t ∈ vol.slots root, (img.entry t).isLive → (img.entry t).isDirectory = false → own t ≠ [] →
    (own t).length = max 1 (((img.entry t).fileSize + vol.clusterSize - 1) / vol.clusterSize)
  covered : ∀ c, 2 ≤ c → c < vol.fatEntries → img.fat c ≠ 0 →
    c ∈ R ∨ c ∈ root ∨ ∃ t ∈ vol.slots root, (img.entry t).isLive ∧ c ∈ own t

/-- A well-formed volume on a drive, with the foreign clusters `R`. -/
def Volume.WellFormed (vol : Volume) (d : Drive) (R : Set Nat) : Prop :=
  vol.Geometry ∧ ∃ root own, vol.Exact (vol.image d) root own R

/-- Names are ASCII without NUL, and contents are shorter than 2^32. -/
def Call.Valid : Call → Prop
  | .create name content | .write name content | .append name content =>
    (∀ b ∈ name, b ≠ 0 ∧ b < 128) ∧ content.length < 2^32
  | .delete name | .mkdir name => ∀ b ∈ name, b ≠ 0 ∧ b < 128

variable {vol : Volume} {d d' : Drive} {img img₁ : Image} {root l : List Nat} {own : Slot → List Nat} {t : Slot}
  {raw : RawName} {name content : List UInt8} {R : Set Nat}

theorem clustersNeeded_eq (hg : vol.Geometry) (len : Nat) :
    vol.clustersNeeded len = max 1 ((len + vol.clusterSize - 1) / vol.clusterSize) := by
  have hpos := clustersNeeded_pos hg len
  have hcs := (clusterSize_eq hg).2.1
  unfold Volume.clustersNeeded at hpos ⊢
  split
  · next hz =>
    rw [hz, Nat.div_eq_of_lt (by omega)]
    rfl
  · next hz =>
    rw [if_neg hz] at hpos
    exact (Nat.max_eq_right hpos).symm

namespace Volume.Exact

/-- The invariant after a change at one slot. -/
theorem replace (hx : vol.Exact img root own R) (hf : vol.Frame img img₁ root own t) (ht : t ∈ vol.slots root)
    (hl : vol.Layout img₁ root (Function.update own t l))
    (hlen : (img₁.entry t).isLive → (img₁.entry t).isDirectory = false → l ≠ [] →
      l.length = max 1 (((img₁.entry t).fileSize + vol.clusterSize - 1) / vol.clusterSize))
    (hcov : ∀ c, img₁.fat c ≠ 0 → (c ∈ l ∧ (img₁.entry t).isLive) ∨
      (img.fat c ≠ 0 ∧ ((img.entry t).isLive → c ∉ own t))) :
    vol.Exact img₁ root (Function.update own t l) R := by
  refine ⟨hl, fun u hu hlive hfile hne => ?_, fun c h2 hn hc => ?_⟩
  · by_cases hut : u = t
    · subst hut
      rw [Function.update_self] at hne ⊢
      exact hlen hlive hfile hne
    · rw [Function.update_of_ne hut] at hne ⊢
      rw [hf.entry u hu hut] at hlive hfile ⊢
      exact hx.length u hu hlive hfile hne
  · rcases hcov c hc with ⟨hin, hlive⟩ | ⟨hold, hnot⟩
    · exact .inr (.inr ⟨t, ht, hlive, by rwa [Function.update_self]⟩)
    · rcases hx.covered c h2 hn hold with hR | hroot | ⟨u, hu, hlive, hin⟩
      · exact .inl hR
      · exact .inr (.inl hroot)
      · have hut : u ≠ t := by
          intro he
          subst he
          exact hnot hlive hin
        refine .inr (.inr ⟨u, hu, ?_, by rwa [Function.update_of_ne hut]⟩)
        rwa [hf.entry u hu hut]

/-- The invariant after content is stored at a slot whose old clusters are free. -/
theorem stored (hg : vol.Geometry) (hx : vol.Exact img root own R) (hf : vol.Frame img img₁ root own t)
    (ht : vol.BeforeEnd img root t)
    (hfreed : ∀ c, img₁.fat c ≠ 0 → img.fat c ≠ 0 ∧ ((img.entry t).isLive → c ∉ own t))
    {entry : Nat → DirEntry} (hlive : ∀ first, (entry first).isLive)
    (hcluster : ∀ first < 2^32, (entry first).cluster = first)
    (hsize : ∀ first, (entry first).fileSize = content.length % 2^32) (hlen : content.length < 2^32)
    (hs : (vol.storeAt img₁ t content entry).1 = 0) :
    vol.Exact (vol.storeAt img₁ t content entry).2 root
      (Function.update own t (vol.newChain img₁.fat content.length)) R := by
  have hl := hf.stored hg hx.toLayout ht (fun first => isEnd_of_isLive (hlive first)) hcluster hsize hs
  have hf' := hf.storeAt hx.toLayout hg ht.mem content entry
  rcases storeAt_result hg img₁ t content entry with ⟨hfit, he⟩ | ⟨-, -, he⟩
  · rw [he] at hl hf' ⊢
    refine hx.replace hf' ht.mem hl (fun _ _ hne => ?_) fun c hc => ?_
    · rw [entry_setEntry, hsize, Nat.mod_eq_of_lt hlen, ← clustersNeeded_eq hg]
      rcases placed_chain hg (hfit.imp_left List.length_eq_zero_iff.mpr) with ⟨-, hnil, -⟩ | ⟨-, hlen', -⟩
      · exact absurd hnil hne
      · exact hlen'
    · by_cases hin : c ∈ vol.newChain img₁.fat content.length
      · exact .inl ⟨hin, by simp [hlive]⟩
      · have hsame : (vol.place img₁ (vol.newChain img₁.fat content.length) content).fat c = img₁.fat c :=
          place_fat_of_notMem hin
        exact .inr (hfreed c (by rwa [← hsame]))
  · rw [he] at hs
    cases hs

section
variable (hg : vol.Geometry) (hx : vol.Exact img root own R)
include hx

theorem create (hg : vol.Geometry) (he : raw 0 ≠ entryEnd) (hf : raw 0 ≠ entryFree)
    (hlen : content.length < 2^32)
    (hs : (vol.createImage img root raw content).1 = 0) :
    ∃ own', vol.Exact (vol.createImage img root raw content).2 root own' R := by
  unfold Volume.createImage at hs ⊢
  cases ht : vol.freeSlot img root with
  | none =>
    rw [ht] at hs
    cases hs
  | some t =>
    rw [ht] at hs
    have hdead := freeSlot_not_live ht
    refine ⟨_, stored hg hx (.refl img root own t) (ends_before_free ht) (fun c hc => ⟨hc, by simp [hdead]⟩)
      (fun first => newEntry_isLive he hf (.inl rfl)) (fun first => newEntry_cluster raw _ _)
      (fun first => newEntry_fileSize raw _ _ (Nat.mod_lt _ (by decide))) hlen hs⟩

theorem write (hg : vol.Geometry) (he : raw 0 ≠ entryEnd) (hf : raw 0 ≠ entryFree)
    (hlen : content.length < 2^32)
    (hs : (vol.writeImage img root own raw content).1 = 0) :
    ∃ own', vol.Exact (vol.writeImage img root own raw content).2 root own' R := by
  unfold Volume.writeImage at hs ⊢
  cases ht : vol.lookup img root raw with
  | none =>
    rw [ht] at hs
    exact hx.create hg he hf hlen hs
  | some t =>
    rw [ht] at hs
    obtain ⟨hmem, hlive, -⟩ := lookup_spec ht
    have hfreed : ∀ c, (img.release (own t)).fat c ≠ 0 → img.fat c ≠ 0 ∧ ((img.entry t).isLive → c ∉ own t) :=
      fun c hc => (release_fat_ne_zero hc).imp_right fun hin _ => hin
    exact ⟨_, stored hg hx (.release hx.toLayout hmem hlive) (hx.ends.before_live hmem hlive) hfreed
      (fun first => by rwa [rewrite_isLive]) (fun first => rewrite_cluster)
      (fun first => rewrite_fileSize (Nat.mod_lt _ (by decide))) hlen hs⟩

/-- Deleting an entry that is there, or failing to. -/
theorem delete (raw : RawName) :
    vol.Exact (vol.deleteImage img root own raw).2 root (vol.deleteOwn img root own raw) R := by
  unfold Volume.deleteImage Volume.deleteOwn
  cases ht : vol.lookup img root raw with
  | none => exact hx
  | some t =>
    obtain ⟨hmem, hlive, -⟩ := lookup_spec ht
    obtain ⟨hf, hl⟩ := hx.deleted hmem hlive
    exact hx.replace hf hmem hl (by simp) fun c hc => .inr ((release_fat_ne_zero hc).imp_right fun hin _ => hin)

theorem mkdir (he : raw 0 ≠ entryEnd) (hs : (vol.mkdirImage img root raw).1 = 0) :
    ∃ own', vol.Exact (vol.mkdirImage img root raw).2 root own' R := by
  unfold Volume.mkdirImage at hs ⊢
  cases ht : vol.freeSlot img root with
  | none =>
    rw [ht] at hs
    cases hs
  | some t =>
    have hmem := (freeSlot_spec ht).1
    have hf := (Frame.refl img root own t).setEntry hx.toLayout hmem (newEntry raw attrDirectory 0 0 0)
    have hdir : (newEntry raw attrDirectory 0 0 0).isDirectory = true := by
      simp [DirEntry.isDirectory, attrDirectory]
    have hl := hf.layout (l := []) hx.toLayout (ends_before_free ht) (by simp [newEntry_isEnd he]) fun _ =>
      ⟨.inl ⟨by simp [newEntry_cluster], rfl, by simp [hdir]⟩, by simp, by simp⟩
    exact ⟨_, hx.replace hf hmem hl (by simp) fun c hc => .inr ⟨hc, by simp [freeSlot_not_live ht]⟩⟩

theorem appendBase (name : List UInt8) :
    vol.Exact (vol.appendBase img root own name) root (vol.appendOwn img root own name) R := by
  unfold Volume.appendBase Volume.appendOwn
  cases vol.listedSlot img root name with
  | none => exact hx
  | some u => exact hx.delete _

omit hx in
theorem appendContent_length (img : Image) (root : List Nat) (own : Slot → List Nat)
    (name content : List UInt8) :
    (vol.appendContent img root own name content).length ≤ 4095 := by
  unfold Volume.appendContent Volume.appendBuf
  split <;> simp only [List.length_append, List.length_take, List.length_nil] <;> omega

/-- One successful call. -/
theorem step (hg : vol.Geometry) {call : Call} (hv : call.Valid) (hs : (vol.onImage img root own call).1 = 0) :
    ∃ own', vol.Exact (vol.onImage img root own call).2 root own' R := by
  cases call with
  | create name content =>
    obtain ⟨hname, hlen⟩ := hv
    obtain ⟨he, hf⟩ := encode83Name_first hname
    exact hx.create hg he hf hlen hs
  | write name content =>
    obtain ⟨hname, hlen⟩ := hv
    obtain ⟨he, hf⟩ := encode83Name_first hname
    exact hx.write hg he hf hlen hs
  | delete name => exact ⟨_, hx.delete _⟩
  | append name content =>
    obtain ⟨he, hf⟩ := encode83Name_first hv.1
    have hlen : (vol.appendContent img root own name content).length ≤ 4095 := appendContent_length ..
    exact (hx.appendBase name).create hg he hf (by omega) hs
  | mkdir name => exact hx.mkdir (encode83Name_first hv).1 hs

end

end Volume.Exact

/-- Every run of successful calls on a working drive leads from a well-formed
volume to a well-formed volume, with the same foreign clusters. -/
theorem successful_runs_well_formed {calls : List Call} (hw : vol.WellFormed d R)
    (hreads : ∀ lba, d.readFails lba = false) (hwrites : ∀ lba, d.writeFails lba = false)
    (hcalls : ∀ call ∈ calls, call.Valid)
    (hr : Run (fun d call d' => vol.exec d call = some (0, d')) d calls d') : vol.WellFormed d' R := by
  let Inv (d : Drive) : Prop := ∃ img, vol.Shows d img ∧ ∃ root own, vol.Exact img root own R
  obtain ⟨hg, hex⟩ := hw
  have hinv : Inv d' := by
    refine (hr.restrict hcalls).invariant Inv ?_ ⟨_, ⟨hreads, hwrites, rfl⟩, hex⟩
    rintro d₁ call d₂ ⟨img, h, root, own, hx⟩ ⟨hv, he⟩
    obtain ⟨d₃, he', h'⟩ := h.exec hg hx.toLayout call
    obtain ⟨hs, rfl⟩ := Prod.mk.inj (Option.some.inj (he'.symm.trans he))
    obtain ⟨own', hx'⟩ := hx.step hg hv hs
    exact ⟨_, h', root, own', hx'⟩
  obtain ⟨img, h, hex'⟩ := hinv
  exact ⟨hg, h.image.symm ▸ hex'⟩

theorem small_wellFormed : smallVolume.WellFormed smallDrive (Set.Ici 5) := by
  refine ⟨small_geometry, [2], smallOwn, small_layout, fun t ht hlive _ _ => ?_, fun c h2 hn hc => ?_⟩
  · obtain rfl := small_only t ht hlive
    rw [smallOwn, Function.update_self]
    decide +kernel
  · by_cases hR : 5 ≤ c
    · exact .inl hR
    · obtain rfl | rfl | rfl : c = 2 ∨ c = 3 ∨ c = 4 := by omega
      · exact .inr (.inl (by simp))
      · exact .inr (.inr ⟨smallSlot, by decide, small_live, by simp [smallOwn]⟩)
      · exact absurd (by decide +kernel) hc

theorem successful_runs_well_formed_small :
    ∃ d', Run (fun d call d' => smallVolume.exec d call = some (0, d')) smallDrive smallCalls d' ∧
      smallVolume.WellFormed d' (Set.Ici 5) := by
  obtain ⟨d', hrun⟩ := small_run
  have hr : Run (fun d call d' => smallVolume.exec d call = some (0, d')) smallDrive smallCalls d' := by
    refine Machine.run_steps (fun d call _ o ho d' he => ?_) hrun
    obtain rfl : o = 0 := by simpa using ho
    exact he
  exact ⟨d', hr, successful_runs_well_formed small_wellFormed (fun _ => rfl) (fun _ => rfl)
    (by simp [smallCalls, Call.Valid]) hr⟩

end GeckoOS.Fs.Fat32
