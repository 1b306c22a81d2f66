import GeckoOS.Mem.MapLoops

/-! Several address spaces in one memory, and which of them map the frames that
are tables, or may become tables, to themselves. -/
namespace GeckoOS.Mem.Paging
variable {σ : Type} {alloc : AllocateBlock σ} {avail : σ → Nat → Prop} {low : σ → Nat} {s s' : Vmm σ}
  {root r f t : Nat} {spaces whole : List Nat}

/-- Well-formed address spaces that share no table. -/
structure Forest (avail : σ → Nat → Prop) (s : Vmm σ) (spaces : List Nat) : Prop where
  ok : ∀ r ∈ spaces, s.Ok avail r
  apart : ∀ r ∈ spaces, ∀ r' ∈ spaces, r ≠ r' → ∀ p q t, IsPath p → IsPath q →
    tableAt s.mem r p = some t → tableAt s.mem r' q ≠ some t

namespace Forest
variable (h : Forest avail s spaces)
include h

theorem not_avail (ht : IsTable s.mem spaces t) : ¬ avail s.phys t := by
  obtain ⟨r, hr, p, hp, ht⟩ := ht
  exact (h.ok r hr).apart p t hp ht

theorem dvd (ht : IsTable s.mem spaces t) : 4096 ∣ t := by
  obtain ⟨r, hr, p, hp, ht⟩ := ht
  exact tableAt_dvd (h.ok r hr).tree.aligned ht

section grows
variable (hg : Grows avail root s s') (hroot : root ∈ spaces)
include hg hroot

/-- The tables of the other address spaces are not written to. -/
private theorem other_mem (hr : r ∈ spaces) (hne : r ≠ root) (p : List Nat) (t : Nat) (hp : IsPath p)
    (ht : tableAt s.mem r p = some t) : ∀ i < 512, s'.mem (entryAddr t i) = s.mem (entryAddr t i) := by
  have htable : IsTable s.mem spaces t := ⟨r, hr, p, hp, ht⟩
  apply hg.frame t (h.dvd htable) _ (h.not_avail htable)
  intro q hq hu
  exact h.apart r hr root hroot hne p q t hp hq ht hu

theorem other_tableAt (hr : r ∈ spaces) (hne : r ≠ root) {p : List Nat} (hp : IsPath p) :
    tableAt s'.mem r p = tableAt s.mem r p :=
  tableAt_congr (h.other_mem hg hroot hr hne) p hp

theorem other_translate (hr : r ∈ spaces) (hne : r ≠ root) (v : BitVec 64) :
    translate s'.mem r v = translate s.mem r v :=
  translate_mem_congr (h.other_mem hg hroot hr hne) v

theorem isTable_grows (ht : IsTable s'.mem spaces t) :
    IsTable s.mem spaces t ∨ avail s.phys t ∧ ∃ p, IsPath p ∧ tableAt s'.mem root p = some t := by
  obtain ⟨r, hr, p, hp, ht⟩ := ht
  by_cases hne : r = root
  · subst hne
    rcases hg.tables p t hp ht with hold | hav
    · exact .inl ⟨r, hr, p, hp, hold⟩
    · exact .inr ⟨hav, p, hp, ht⟩
  · rw [h.other_tableAt hg hroot hr hne hp] at ht
    exact .inl ⟨r, hr, p, hp, ht⟩

theorem grows : Forest avail s' spaces := by
  have hnew : ∀ r ∈ spaces, r ≠ root → ∀ p q t, IsPath p → IsPath q → tableAt s'.mem root p = some t →
      tableAt s.mem r q ≠ some t := by
    intro r hr hne p q t hp hq ht hu
    rcases hg.tables p t hp ht with hold | hav
    · exact h.apart r hr root hroot hne q p t hq hp hu hold
    · exact h.not_avail ⟨r, hr, q, hq, hu⟩ hav
  refine ⟨fun r hr => ?_, fun r hr r' hr' hne p q t hp hq ht hu => ?_⟩
  · by_cases hne : r = root
    · exact hne ▸ hg.ok
    · have hsame := h.other_mem hg hroot hr hne
      refine ⟨(h.ok r hr).tree.congr hsame, fun p t hp ht hav => ?_⟩
      rw [tableAt_congr hsame p hp] at ht
      exact (h.ok r hr).apart p t hp ht (hg.mono t hav)
  · by_cases hr1 : r = root
    · subst hr1
      rw [h.other_tableAt hg hroot hr' hne.symm hq] at hu
      exact hnew r' hr' hne.symm p q t hp hq ht hu
    · rw [h.other_tableAt hg hroot hr hr1 hp] at ht
      by_cases hr2 : r' = root
      · subst hr2
        exact hnew r hr hr1 q p t hq hp hu ht
      · rw [h.other_tableAt hg hroot hr' hr2 hq] at hu
        exact h.apart r hr r' hr' hne p q t hp hq ht hu

end grows

/-- A block that is taken for something else. -/
theorem shrink {a : σ} (hmono : ∀ g, avail a g → avail s.phys g) : Forest avail ⟨s.mem, a⟩ spaces :=
  ⟨fun r hr => ⟨(h.ok r hr).tree, fun p t hp ht hav => (h.ok r hr).apart p t hp ht (hmono t hav)⟩, h.apart⟩

end Forest

/-! The frames that are tables or may become tables. -/

theorem pageOf_frame (hf : f < identityEnd) : pageOf (BitVec.ofNat 64 f) = f / 4096 := by
  unfold identityEnd at hf
  rw [pageOf, BitVec.toNat_ofNat, Nat.mod_eq_of_lt (by omega)]
  omega

theorem selfMapped_of_translate {m : Memory} (hf : f ≠ 0) (h : translate m root (BitVec.ofNat 64 f) = f) :
    SelfMapped m root f := by
  unfold translate at h
  cases ht : tableAt m root (pathOf (BitVec.ofNat 64 f)) with
  | none =>
    rw [ht] at h
    exact absurd h.symm hf
  | some t =>
    rw [ht] at h
    dsimp only at h
    split at h
    · next hpres => exact ⟨t, ht, hpres, h⟩
    · exact absurd h.symm hf

theorem translate_of_selfMapped {m : Memory} (h : SelfMapped m root f) :
    translate m root (BitVec.ofNat 64 f) = f := by
  obtain ⟨t, ht, hpres, hphys⟩ := h
  unfold translate
  rw [ht]
  dsimp only
  rw [if_pos hpres, hphys]

/-- The tables of `spaces` are low, and the address spaces in `whole` map every
frame that is a table or may become one to itself. -/
structure Covered (avail : σ → Nat → Prop) (s : Vmm σ) (spaces whole : List Nat) : Prop where
  forest : Forest avail s spaces
  low : ∀ t, IsTable s.mem spaces t → t < identityEnd ∧ t ≠ 0
  subset : ∀ r ∈ whole, r ∈ spaces
  mapped : ∀ r ∈ whole, ∀ f, Needed avail s spaces f → translate s.mem r (BitVec.ofNat 64 f) = f

namespace Covered
variable (h : Covered avail s spaces whole)
include h

theorem needed_table (ht : IsTable s.mem spaces t) : Needed avail s spaces t :=
  ⟨(h.low t ht).1, (h.low t ht).2, h.forest.dvd ht, .inr ht⟩

theorem shrink {a : σ} (hmono : ∀ g, avail a g → avail s.phys g) : Covered avail ⟨s.mem, a⟩ spaces whole :=
  ⟨h.forest.shrink hmono, h.low, h.subset, fun r hr f hf =>
    h.mapped r hr f ⟨hf.low, hf.pos, hf.dvd, hf.role.imp_left (hmono f)⟩⟩

theorem needed_of_grows (hg : Grows avail root s s') (hroot : root ∈ spaces) (hf : Needed avail s' spaces f) :
    Needed avail s spaces f := by
  refine ⟨hf.low, hf.pos, hf.dvd, ?_⟩
  rcases hf.role with hav | ht
  · exact .inl (hg.mono f hav)
  · rcases h.forest.isTable_grows hg hroot ht with hold | ⟨hav, -⟩
    · exact .inr hold
    · exact .inl hav

variable (ha : LowBlocks alloc avail low) (hroot : root ∈ spaces) {phys virt : BitVec 64}
  (hroom : Vmm.missing s.mem root (pathOf virt) ≤ low s.phys)
include ha hroot hroom

/-- Every frame that `get_pte` touches is mapped to itself at that moment. -/
theorem touched (hr : r ∈ whole) : ∀ x ∈ s.touched alloc root (pathOf virt), SelfMapped x.1 r x.2 := by
  intro x hx
  have hok := h.forest.ok root hroot
  have hp : IsPath ([] ++ pathOf virt) := pathOf_isPath virt
  obtain ⟨⟨s₁, hg, hmem⟩, hframe⟩ := (walk_grows ha.toFreshBlocks hok hp rfl).2.2 x hx
  have hneeded : Needed avail s spaces x.2 := by
    rcases hframe with ⟨q, hq, hxq⟩ | hav
    · exact h.needed_table ⟨root, hroot, q, hq, hxq⟩
    · rcases walk_low ha.toFreshBlocks ha.toLowFirst hok hp rfl hroom x hx with ⟨q, hq, hxq⟩ | hlow
      · exact h.needed_table ⟨root, hroot, q, hq, hxq⟩
      · obtain ⟨hpos, hdvd⟩ := ha.frame _ _ hav
        exact ⟨hlow, hpos, hdvd, .inl hav⟩
  have hsame : translate s₁.mem r (BitVec.ofNat 64 x.2) = translate s.mem r (BitVec.ofNat 64 x.2) := by
    by_cases hne : r = root
    · exact hne ▸ hg.pages _
    · exact h.forest.other_translate hg.toGrows hroot (h.subset r hr) hne _
  rw [hmem]
  exact selfMapped_of_translate hneeded.pos (hsame.trans (h.mapped r hr _ hneeded))

theorem vmmMap (hkept : ∀ f, Needed avail s spaces f → pageOf virt = f / 4096 → pteGetPhys phys = f)
    (flags : BitVec 64) : Covered avail (s.vmmMap alloc root phys virt flags).2 spaces whole := by
  have hok := h.forest.ok root hroot
  have hg := vmmMap_grows ha.toFreshBlocks hok phys virt flags
  refine ⟨h.forest.grows hg hroot, fun t ht => ?_, h.subset, fun r hr f hf => ?_⟩
  · rcases h.forest.isTable_grows hg hroot ht with hold | ⟨hav, p, hp, hnew⟩
    · exact h.low t hold
    · refine ⟨?_, (ha.frame _ _ hav).1⟩
      rcases vmmMap_low ha.toFreshBlocks hok phys virt flags ha.toLowFirst hroom p t hp hnew with hold | hlow
      · exact (h.low t ⟨root, hroot, p, hp, hold⟩).1
      · exact hlow
  · have hf' := h.needed_of_grows hg hroot hf
    by_cases hne : r = root
    · subst hne
      rw [(vmmMap_spec ha.toFreshBlocks hok phys virt flags).2, pageOf_frame hf.low]
      split
      · next hpage => exact hkept f hf' hpage.2.symm
      · exact h.mapped r hr f hf'
    · rw [h.forest.other_translate hg hroot (h.subset r hr) hne]
      exact h.mapped r hr f hf'

end Covered

/-! A new address space. -/

section newSpace
variable {m : Memory} {u i : Nat} {a : σ}

private theorem clearTable_other (hu : 4096 ∣ u) (hf : 4096 ∣ f) (hne : u ≠ f) (hi : i < 512) :
    Vmm.clearTable m f (entryAddr u i) = m (entryAddr u i) :=
  if_neg (by unfold entryAddr; omega)

variable (ha : LowBlocks alloc avail low) (hal : alloc s.phys = (some f, a))
include ha hal

private theorem alloc_mono (g : Nat) (hg : avail a g) : avail s.phys g := ha.mono _ g (by rw [hal]; exact hg)

private theorem cleared_other (h : Forest avail s spaces) (hr : r ∈ spaces) (p : List Nat) (t : Nat)
    (hp : IsPath p)
    (ht : tableAt s.mem r p = some t) :
    ∀ i < 512, Vmm.clearTable s.mem f (entryAddr t i) = s.mem (entryAddr t i) := by
  intro i hi
  obtain ⟨hav, hd, -, -⟩ := ha.fresh _ _ _ hal
  have htable : IsTable s.mem spaces t := ⟨r, hr, p, hp, ht⟩
  exact clearTable_other (h.dvd htable) hd (fun he => h.not_avail htable (he ▸ hav)) hi

theorem Forest.newSpace (h : Forest avail s spaces) :
    Forest avail ⟨Vmm.clearTable s.mem f, a⟩ (f :: spaces) := by
  have hav := (ha.fresh _ _ _ hal).1
  have hold : ∀ r ∈ spaces, ∀ p, IsPath p → tableAt (Vmm.clearTable s.mem f) r p = tableAt s.mem r p :=
    fun r hr => tableAt_congr (cleared_other ha hal h hr)
  have hnot : ∀ r ∈ spaces, ∀ p, IsPath p → tableAt s.mem r p ≠ some f :=
    fun r hr p hp ht => h.not_avail ⟨r, hr, p, hp, ht⟩ hav
  refine ⟨fun r hr => ?_, fun r hr r' hr' hne p q t hp hq ht hu => ?_⟩
  · rcases List.mem_cons.mp hr with rfl | hr
    · exact cleared_ok ha.toFreshBlocks hal
    · refine ⟨(h.ok r hr).tree.congr (cleared_other ha hal h hr), fun p t hp ht hau => ?_⟩
      rw [hold r hr p hp] at ht
      exact (h.ok r hr).apart p t hp ht (alloc_mono ha hal t hau)
  · dsimp only at ht hu
    rcases List.mem_cons.mp hr with rfl | hin
    · have hin' := (List.mem_cons.mp hr').resolve_left hne.symm
      rw [(cleared_tableAt hp ht).2, hold r' hin' q hq] at hu
      exact hnot r' hin' q hq hu
    · rw [hold r hin p hp] at ht
      rcases List.mem_cons.mp hr' with rfl | hin'
      · rw [(cleared_tableAt hq hu).2] at ht
        exact hnot r hin p hp ht
      · rw [hold r' hin' q hq] at hu
        exact h.apart r hin r' hin' hne p q t hp hq ht hu

theorem Covered.newSpace (h : Covered avail s spaces whole) (hlow : f < identityEnd) :
    Covered avail ⟨Vmm.clearTable s.mem f, a⟩ (f :: spaces) whole := by
  have hav := (ha.fresh _ _ _ hal).1
  have htable : ∀ t, IsTable (Vmm.clearTable s.mem f) (f :: spaces) t → t = f ∨ IsTable s.mem spaces t := by
    rintro t ⟨r, hr, p, hp, ht⟩
    rcases List.mem_cons.mp hr with rfl | hr
    · exact .inl (cleared_tableAt hp ht).2
    · rw [tableAt_congr (cleared_other ha hal h.forest hr) p hp] at ht
      exact .inr ⟨r, hr, p, hp, ht⟩
  refine ⟨h.forest.newSpace ha hal, fun t ht => ?_, fun r hr => List.mem_cons_of_mem _ (h.subset r hr),
    fun r hr g hg => ?_⟩
  · rcases htable t ht with rfl | hold
    · exact ⟨hlow, (ha.frame _ _ hav).1⟩
    · exact h.low t hold
  · have hrole : avail s.phys g ∨ IsTable s.mem spaces g := by
      rcases hg.role with hga | ht
      · exact .inl (alloc_mono ha hal g hga)
      · rcases htable g ht with rfl | hold
        · exact .inl hav
        · exact .inr hold
    have hsame := translate_mem_congr (cleared_other ha hal h.forest (h.subset r hr)) (BitVec.ofNat 64 g)
    exact hsame.trans (h.mapped r hr g ⟨hg.low, hg.pos, hg.dvd, hrole⟩)

end newSpace

end GeckoOS.Mem.Paging
