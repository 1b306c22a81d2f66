import GeckoOS.Fs.Names
import GeckoOS.Fs.Sound
import Mathlib.Data.Set.Function

/-! Which calls put a second entry of the same raw name into the root directory,
and that without them the names stay unique over whole runs. -/
namespace GeckoOS.Fs.Fat32
open Lib

namespace Volume
variable (vol : Volume)

/-- The slots of files and directories. -/
def liveSlots (root : List Nat) (f : Slot → DirEntry) : Set Slot := {t | t ∈ vol.slots root ∧ (f t).isLive}

/-- No two of them have the same raw name. -/
def UniqueNames (root : List Nat) (f : Slot → DirEntry) : Prop :=
  (vol.liveSlots root f).InjOn fun t => (f t).rawName

/-- A file or a directory has this raw name. -/
def Taken (root : List Nat) (f : Slot → DirEntry) (raw : RawName) : Prop :=
  ∃ t ∈ vol.liveSlots root f, (f t).rawName = raw

/-- There is a slot for a new entry, and there are clusters for its content. -/
def HasRoom (img : Image) (root : List Nat) (content : List UInt8) : Prop :=
  (vol.freeSlot img root).isSome ∧ (content = [] ∨ vol.Fits img.fat content.length)

/-- A call that adds an entry without looking for its name, or, with
`fat32_append_file`, without finding the name in the listing of files. -/
def Clashes (img : Image) (root : List Nat) : Call → Prop
  | .create name content => vol.HasRoom img root content ∧ vol.Taken root img.entry (encode83Name name)
  | .append name content =>
    findListed name ((vol.visible img root).map fun t => (img.entry t).toFsEntry) = none ∧
      vol.HasRoom img root (appendBuf [] content) ∧ vol.Taken root img.entry (encode83Name name)
  | .mkdir name => vol.HasRoom img root [] ∧ vol.Taken root img.entry (encode83Name name)
  | .write _ _ | .delete _ => False

/-- One entry at most is replaced, by one that is not END and with no END entry before it. -/
inductive OneEntry (img : Image) (root : List Nat) : (Slot → DirEntry) → Prop
  | same : OneEntry img root img.entry
  | replaced {t : Slot} {e : DirEntry} (ht : vol.BeforeEnd img root t) (he : e.isEnd = false) :
      OneEntry img root (Function.update img.entry t e)

variable {vol} {d d' : Drive} {img : Image} {root : List Nat} {f g : Slot → DirEntry} {t : Slot} {e : DirEntry}
  {raw : RawName} {content : List UInt8}

section names

private theorem mem_liveSlots_congr (h : ∀ u ∈ vol.slots root, f u = g u) (t : Slot) :
    t ∈ vol.liveSlots root f ↔ t ∈ vol.liveSlots root g := by
  apply and_congr_right
  intro ht
  rw [h t ht]

theorem uniqueNames_congr (h : ∀ u ∈ vol.slots root, f u = g u) :
    vol.UniqueNames root f ↔ vol.UniqueNames root g := by
  have himp : ∀ {f g : Slot → DirEntry}, (∀ u ∈ vol.slots root, f u = g u) →
      vol.UniqueNames root f → vol.UniqueNames root g := by
    intro f g h hf t ht u hu heq
    apply hf ((mem_liveSlots_congr h t).mpr ht) ((mem_liveSlots_congr h u).mpr hu)
    dsimp only at heq ⊢
    rw [h t ht.1, h u hu.1, heq]
  exact ⟨himp h, himp fun u hu => (h u hu).symm⟩

theorem taken_congr (h : ∀ u ∈ vol.slots root, f u = g u) (raw : RawName) :
    vol.Taken root f raw ↔ vol.Taken root g raw := by
  apply exists_congr
  intro t
  rw [mem_liveSlots_congr h]
  apply and_congr_right
  intro ht
  rw [h t ht.1]

/-- A name in use starts neither like an END entry nor like a deleted one. -/
theorem Taken.first (h : vol.Taken root f raw) : raw 0 ≠ entryEnd ∧ raw 0 ≠ entryFree := by
  obtain ⟨t, ⟨-, hlive⟩, rfl⟩ := h
  rw [DirEntry.isLive, Bool.and_eq_true, Bool.and_eq_true] at hlive
  obtain ⟨⟨hend, hfree⟩, -⟩ := hlive
  have hne : (f t).first ≠ entryEnd ∧ (f t).first ≠ entryFree :=
    ⟨by simpa [DirEntry.isEnd] using hend, by simpa [DirEntry.isFree] using hfree⟩
  exact hne

/-- One entry replaced: its name must not be that of another slot. -/
theorem uniqueNames_update (h : vol.UniqueNames root f) (ht : t ∈ vol.slots root) :
    vol.UniqueNames root (Function.update f t e) ↔
      (e.isLive → ∀ u ∈ vol.liveSlots root f, u ≠ t → (f u).rawName ≠ e.rawName) := by
  have hother : ∀ u ≠ t, Function.update f t e u = f u := fun u hne => Function.update_of_ne hne e f
  have hself : Function.update f t e t = e := Function.update_self t e f
  have hmem : ∀ u ≠ t, (u ∈ vol.liveSlots root (Function.update f t e) ↔ u ∈ vol.liveSlots root f) := by
    intro u hne
    show _ ∧ _ ↔ _
    rw [hother u hne]
    rfl
  constructor
  · intro hnew hlive u hu hne heq
    apply hne
    apply hnew ((hmem u hne).mpr hu) ⟨ht, by rwa [hself]⟩
    dsimp only
    rw [hother u hne, hself, heq]
  · intro hfree u hu v hv heq
    dsimp only at heq
    by_cases hut : u = t
    · by_cases hvt : v = t
      · rw [hut, hvt]
      · subst hut
        rw [hself, hother v hvt] at heq
        have hlive := hu.2
        rw [hself] at hlive
        exact absurd heq.symm (hfree hlive v ((hmem v hvt).mp hv) hvt)
    · rw [hother u hut] at heq
      by_cases hvt : v = t
      · subst hvt
        rw [hself] at heq
        have hlive := hv.2
        rw [hself] at hlive
        exact absurd heq (hfree hlive u ((hmem u hut).mp hu) hut)
      · rw [hother v hvt] at heq
        exact h ((hmem u hut).mp hu) ((hmem v hvt).mp hv) heq

/-- A new entry in a slot that was not in use. -/
private theorem uniqueNames_new (h : vol.UniqueNames root f) (ht : t ∈ vol.slots root)
    (hfree : (f t).isLive = false)
    {a : UInt8} (ha : a = attrArchive ∨ a = attrDirectory) (date first size : Nat) :
    vol.UniqueNames root (Function.update f t (newEntry raw a date first size)) ↔ ¬ vol.Taken root f raw := by
  rw [uniqueNames_update h ht, newEntry_rawName]
  constructor
  · rintro hnew ⟨u, hu, heq⟩
    obtain ⟨hend, hdel⟩ := Taken.first ⟨u, hu, heq⟩
    refine hnew (newEntry_isLive hend hdel ha) u hu ?_ heq
    rintro rfl
    rw [hu.2] at hfree
    cases hfree
  · intro hnot _ u hu _ heq
    exact hnot ⟨u, hu, heq⟩

theorem uniqueNames_create (h : vol.UniqueNames root img.entry) :
    vol.UniqueNames root (vol.createEntries img root raw content) ↔
      ¬ (vol.HasRoom img root content ∧ vol.Taken root img.entry raw) := by
  unfold createEntries HasRoom
  cases ht : vol.freeSlot img root with
  | none => simp [h]
  | some t =>
    dsimp only
    unfold storeEntries
    split
    · next hfit =>
      rw [uniqueNames_new h (freeSlot_spec ht).1 (freeSlot_not_live ht) (.inl rfl)]
      simp [hfit]
    · next hfit => simp [hfit, h]

theorem uniqueNames_mkdir (h : vol.UniqueNames root img.entry) :
    vol.UniqueNames root (vol.mkdirEntries img root raw) ↔
      ¬ (vol.HasRoom img root [] ∧ vol.Taken root img.entry raw) := by
  unfold mkdirEntries HasRoom
  cases ht : vol.freeSlot img root with
  | none => simp [h]
  | some t =>
    dsimp only
    rw [uniqueNames_new h (freeSlot_spec ht).1 (freeSlot_not_live ht) (.inr rfl)]
    simp

/-- Without entries behind END, a search by name finds every entry. -/
theorem found_none (hends : vol.EndsOnce img root) (h : vol.found img root raw = none) :
    ¬ vol.Taken root img.entry raw := by
  rintro ⟨t, ⟨ht, hlive⟩, heq⟩
  have hvis : t ∈ vol.visible img root := by
    rw [visible_eq hends]
    exact List.mem_filter.mpr ⟨ht, hlive⟩
  exact List.find?_eq_none.mp h t hvis (beq_iff_eq.mpr heq)

theorem found_spec (h : vol.found img root raw = some t) :
    t ∈ vol.liveSlots root img.entry ∧ (img.entry t).rawName = raw := by
  have hname := List.find?_some h
  exact ⟨mem_visible (List.mem_of_find?_eq_some h), beq_iff_eq.mp hname⟩

theorem uniqueNames_delete (h : vol.UniqueNames root img.entry) :
    vol.UniqueNames root (vol.deleteEntries img root raw) := by
  unfold deleteEntries
  cases ht : vol.found img root raw with
  | none => exact h
  | some t =>
    apply (uniqueNames_update h (found_spec ht).1.1).mpr
    intro hlive
    rw [deleted_isLive] at hlive
    cases hlive

/-- The only entry of that name is gone. -/
theorem taken_delete (h : vol.UniqueNames root img.entry) (hends : vol.EndsOnce img root) :
    ¬ vol.Taken root (vol.deleteEntries img root raw) raw := by
  unfold deleteEntries
  cases ht : vol.found img root raw with
  | none => exact found_none hends ht
  | some t =>
    obtain ⟨hmem, hname⟩ := found_spec ht
    rintro ⟨u, ⟨hu, hlive⟩, heq⟩
    dsimp only at hlive heq
    by_cases hut : u = t
    · rw [hut, Function.update_self, deleted_isLive] at hlive
      cases hlive
    · rw [Function.update_of_ne hut] at hlive heq
      exact hut (h ⟨hu, hlive⟩ hmem (heq.trans hname.symm))

theorem uniqueNames_rewrite (h : vol.UniqueNames root f) (ht : t ∈ vol.liveSlots root f) (first size : Nat) :
    vol.UniqueNames root (Function.update f t ((f t).rewrite first size)) := by
  apply (uniqueNames_update h ht.1).mpr
  intro _ u hu hne heq
  rw [rewrite_rawName] at heq
  exact hne (h hu ht heq)

end names

section ends

private theorem OneEntry.ends (h : vol.OneEntry (vol.image d) root f) (hends : vol.EndsOnce (vol.image d) root)
    (ha : vol.After root d d' f) : vol.EndsOnce (vol.image d') root := by
  cases h with
  | same =>
    refine List.Pairwise.imp_of_mem (fun {t u} ht hu htu => ?_) hends
    rw [ha.entry t ht, ha.entry u hu]
    exact htu
  | replaced ht he =>
    apply hends.replace ha.sound.volume.rootChain.nodup ht
    · intro u hu hne
      rw [ha.entry u hu, Function.update_of_ne hne]
    · rw [ha.entry _ ht.mem, Function.update_self]
      exact he

private theorem oneEntry_create (hraw : raw 0 ≠ entryEnd) :
    vol.OneEntry img root (vol.createEntries img root raw content) := by
  unfold createEntries
  cases ht : vol.freeSlot img root with
  | none => exact .same
  | some t =>
    dsimp only
    unfold storeEntries
    split
    · exact .replaced (ends_before_free ht) (newEntry_isEnd hraw)
    · exact .same

private theorem oneEntry_mkdir (hraw : raw 0 ≠ entryEnd) :
    vol.OneEntry img root (vol.mkdirEntries img root raw) := by
  unfold mkdirEntries
  cases ht : vol.freeSlot img root with
  | none => exact .same
  | some t => exact .replaced (ends_before_free ht) (newEntry_isEnd hraw)

private theorem oneEntry_delete (hends : vol.EndsOnce img root) :
    vol.OneEntry img root (vol.deleteEntries img root raw) := by
  unfold deleteEntries
  cases ht : vol.found img root raw with
  | none => exact .same
  | some t =>
    obtain ⟨⟨hmem, hlive⟩, -⟩ := found_spec ht
    exact .replaced (hends.before_live hmem hlive) deleted_isEnd

end ends

section calls
variable (hv : vol.Opened) (h : vol.Sound root d) (hends : vol.EndsOnce (vol.image d) root)
  (hu : vol.UniqueNames root (vol.image d).entry)
include hv h hends hu

/-- A call keeps the names unique exactly if it does not clash. -/
theorem Sound.uniqueNames_exec (call : Call) :
    ∃ z d', vol.exec d call = some (z, d') ∧ vol.Sound root d' ∧
      (0 ∉ call.name → vol.EndsOnce (vol.image d') root) ∧
      (vol.UniqueNames root (vol.image d').entry ↔ ¬ vol.Clashes (vol.image d) root call) := by
  cases call with
  | create name content =>
    obtain ⟨z, d', he, ha⟩ := h.createFile hv name content
    refine ⟨z, d', he, ha.sound, fun hname => ?_, ?_⟩
    · exact (oneEntry_create (encode83Name_not_end hname)).ends hends ha
    · rw [uniqueNames_congr ha.entry]
      exact uniqueNames_create hu
  | write name content =>
    obtain ⟨z, d', he, ha⟩ := h.writeFile hv name content
    cases ht : vol.found (vol.image d) root (encode83Name name) with
    | none =>
      rw [ht] at ha
      refine ⟨z, d', he, ha.sound, fun hname => ?_, iff_of_true ?_ not_false⟩
      · exact (oneEntry_create (encode83Name_not_end hname)).ends hends ha
      · rw [uniqueNames_congr ha.entry, uniqueNames_create hu]
        exact fun hbad => found_none hends ht hbad.2
    | some t =>
      rw [ht] at ha
      obtain ⟨hmem, -⟩ := found_spec ht
      rcases ha with ha | ⟨first, ha⟩
      · refine ⟨z, d', he, ha.sound, fun _ => OneEntry.same.ends hends ha, iff_of_true ?_ not_false⟩
        rw [uniqueNames_congr ha.entry]
        exact hu
      · refine ⟨z, d', he, ha.sound, fun _ => ?_, iff_of_true ?_ not_false⟩
        · refine OneEntry.ends (.replaced (hends.before_live hmem.1 hmem.2) ?_) hends ha
          rw [rewrite_isEnd]
          exact isEnd_of_isLive hmem.2
        · rw [uniqueNames_congr ha.entry]
          exact uniqueNames_rewrite hu hmem _ _
  | delete name =>
    obtain ⟨z, d', he, ha⟩ := h.deleteFile hv name
    refine ⟨z, d', he, ha.sound, fun _ => (oneEntry_delete hends).ends hends ha, iff_of_true ?_ not_false⟩
    rw [uniqueNames_congr ha.entry]
    exact uniqueNames_delete hu
  | append name content =>
    obtain ⟨z, d', he, ha⟩ := h.appendFile hv name content
    refine ⟨z, d', he, ?_⟩
    unfold Clashes
    split at ha
    · next hlist =>
      refine ⟨ha.sound, fun hname => ?_, ?_⟩
      · exact (oneEntry_create (encode83Name_not_end hname)).ends hends ha
      · rw [uniqueNames_congr ha.entry, uniqueNames_create hu]
        simp [hlist]
    · next hlist =>
      -- the entry of that name is deleted before the new one is made
      obtain ⟨d₁, text, ha₁, ha₂⟩ := ha
      have hends₁ := (oneEntry_delete hends).ends hends ha₁
      have hu₁ : vol.UniqueNames root (vol.image d₁).entry :=
        (uniqueNames_congr ha₁.entry).mpr (uniqueNames_delete hu)
      refine ⟨ha₂.sound, fun hname => ?_, iff_of_true ?_ fun hbad => ?_⟩
      · exact (oneEntry_create (encode83Name_not_end hname)).ends hends₁ ha₂
      · rw [uniqueNames_congr ha₂.entry, uniqueNames_create hu₁, taken_congr ha₁.entry]
        exact fun hbad => taken_delete hu hends hbad.2
      · have hnone := hbad.1
        rw [hlist] at hnone
        cases hnone
  | mkdir name =>
    obtain ⟨z, d', he, ha⟩ := h.mkdir hv name
    refine ⟨z, d', he, ha.sound, fun hname => ?_, ?_⟩
    · exact (oneEntry_mkdir (encode83Name_not_end hname)).ends hends ha
    · rw [uniqueNames_congr ha.entry]
      exact uniqueNames_mkdir hu

end calls

end Volume

variable {vol : Volume} {d d' : Drive} {root : List Nat} {calls : List Call}

/-- From a root directory with unique names, no entries behind END and no chain
that runs into it, every sequence of calls that do not clash keeps the names
unique; and the next call keeps them unique exactly if it does not clash. -/
theorem root_names_unique (hv : vol.Opened) (hw : d.Works) (ha : vol.RootApart (vol.image d) root)
    (hends : vol.EndsOnce (vol.image d) root) (hu : vol.UniqueNames root (vol.image d).entry)
    (hnames : ∀ call ∈ calls, 0 ∉ call.name)
    (hrun : Run (fun d call d' => ¬ vol.Clashes (vol.image d) root call ∧
      ∃ z, vol.exec d call = some (z, d')) d calls d') :
    vol.UniqueNames root (vol.image d').entry ∧
      ∀ call, ∃ z d'', vol.exec d' call = some (z, d'') ∧
        (vol.UniqueNames root (vol.image d'').entry ↔ ¬ vol.Clashes (vol.image d') root call) := by
  have hkept : vol.Sound root d' ∧ vol.EndsOnce (vol.image d') root ∧
    vol.UniqueNames root (vol.image d').entry := by
    apply (hrun.restrict hnames).invariant fun d =>
      vol.Sound root d ∧ vol.EndsOnce (vol.image d) root ∧ vol.UniqueNames root (vol.image d).entry
    · rintro e call e' ⟨hs, hends, hu⟩ ⟨hname, hclash, z, hstep⟩
      obtain ⟨z', d'', heq, hs', hends', hiff⟩ := hs.uniqueNames_exec hv hends hu call
      rw [hstep] at heq
      obtain ⟨-, rfl⟩ := Prod.mk.inj (Option.some.inj heq)
      exact ⟨hs', hends' hname, hiff.mpr hclash⟩
    · exact ⟨⟨hw, ha⟩, hends, hu⟩
  obtain ⟨hs, hends', hu'⟩ := hkept
  refine ⟨hu', fun call => ?_⟩
  obtain ⟨z, d'', heq, -, -, hiff⟩ := hs.uniqueNames_exec hv hends' hu' call
  exact ⟨z, d'', heq, hiff⟩

private theorem small_unique : smallVolume.UniqueNames [2] (smallVolume.image smallDrive).entry := by
  intro t ht u hu _
  rw [small_only t ht.1 ht.2, small_only u hu.1 hu.2]

/-- B is new, and a directory A comes when the file A is gone. -/
theorem root_names_unique_small :
    ∃ d', Run (fun d call d' => ¬ smallVolume.Clashes (smallVolume.image d) [2] call ∧
        ∃ z, smallVolume.exec d call = some (z, d')) smallDrive (smallCalls ++ [.mkdir [65]]) d' ∧
      smallVolume.UniqueNames [2] (smallVolume.image d').entry := by
  have hfresh : ¬ smallVolume.Clashes (smallVolume.image smallDrive) [2] (.create [66] [1, 2, 3]) := by
    rintro ⟨-, t, ⟨ht, hlive⟩, heq⟩
    rw [small_only t ht hlive] at heq
    have hne : ((smallVolume.image smallDrive).entry smallSlot).rawName ≠ encode83Name [66] := by decide +kernel
    exact hne heq
  have hgone : (Machine.run smallVolume.exec smallDrive smallCalls).map (fun r =>
      decide (∀ t ∈ smallVolume.slots [2], ((smallVolume.image r.2).entry t).isLive →
        ((smallVolume.image r.2).entry t).rawName ≠ encode83Name [65])) = some true := by decide +kernel
  obtain ⟨⟨answers, d₃⟩, hrun, hfree⟩ := Option.map_eq_some_iff.mp hgone
  obtain ⟨z, d₁, rest, hfirst, hlater, -⟩ := Machine.run_cons_eq_some.mp hrun
  have hthree : Run (fun d call d' => ¬ smallVolume.Clashes (smallVolume.image d) [2] call ∧
      ∃ z, smallVolume.exec d call = some (z, d')) smallDrive smallCalls d₃ := by
    refine .cons ⟨hfresh, z, hfirst⟩ (Machine.run_steps (fun d call hcall z _ d' he => ⟨?_, z, he⟩) hlater)
    simp only [List.mem_cons, List.not_mem_nil, or_false] at hcall
    rcases hcall with rfl | rfl <;> exact id
  have hclear : ¬ smallVolume.Clashes (smallVolume.image d₃) [2] (.mkdir [65]) :=
    fun ⟨_, t, ⟨ht, hlive⟩, heq⟩ =>
    of_decide_eq_true hfree t ht hlive heq
  obtain ⟨-, hnext⟩ := root_names_unique small_opened small_works small_rootApart small_layout.ends small_unique
    (by decide) hthree
  obtain ⟨z', d', he, -⟩ := hnext (.mkdir [65])
  have hall := hthree.append (.cons ⟨hclear, z', he⟩ (.nil d'))
  exact ⟨d', hall, (root_names_unique small_opened small_works small_rootApart small_layout.ends small_unique
    (by decide) hall).1⟩

/-- Creating A next to A. -/
theorem second_create_duplicates :
    ¬ ∀ (vol : Volume) (d d' : Drive) (root : List Nat) (calls : List Call), vol.Opened → d.Works →
      vol.RootApart (vol.image d) root → vol.EndsOnce (vol.image d) root →
      vol.UniqueNames root (vol.image d).entry →
      (∀ call ∈ calls, 0 ∉ call.name) → Run (fun d call d' => ∃ z, vol.exec d call = some (z, d')) d calls d' →
      vol.UniqueNames root (vol.image d').entry := by
  intro h
  have hs : smallVolume.Sound [2] smallDrive := ⟨small_works, small_rootApart⟩
  obtain ⟨z, d', he, -, -, hiff⟩ :=
    hs.uniqueNames_exec small_opened small_layout.ends small_unique (.create [65] [])
  have hunique := h smallVolume smallDrive d' [2] [.create [65] []] small_opened small_works small_rootApart
    small_layout.ends small_unique (by decide) (.cons ⟨z, he⟩ (.nil d'))
  apply hiff.mp hunique
  have hslot : (smallVolume.freeSlot (smallVolume.image smallDrive) [2]).isSome := by decide +kernel
  have hname : ((smallVolume.image smallDrive).entry smallSlot).rawName = encode83Name [65] := by decide +kernel
  exact ⟨⟨hslot, .inl rfl⟩, smallSlot, ⟨by decide +kernel, small_live⟩, hname⟩

end GeckoOS.Fs.Fat32
