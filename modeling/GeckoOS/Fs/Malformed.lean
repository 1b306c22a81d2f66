import GeckoOS.Fs.Sound
import Mathlib.Data.Finset.Card
import Mathlib.Order.Interval.Finset.Nat

/-! Loops along chains of any shape: the one that frees a chain always ends, the
one through a directory need not. -/
namespace GeckoOS.Fs.Fat32
open Lib

namespace Volume
variable (vol : Volume)

/-- The value of a FAT entry on the drive. The addresses of sectors have 32 bits. -/
def fatValue (d : Drive) (c : Nat) : Nat :=
  if c < vol.fatEntries then
    (d.sectors (add32 vol.fatLba (c / entriesPerSector))).load32 (4 * (c % entriesPerSector)) % 2^28
  else 0

/-- Cluster numbers of 28 bits have their entries in the first 2^21 sectors of a FAT.
The copies of these sectors do not lie in the first FAT, behind the last address. -/
def CopyApart : Prop := vol.numFats ≤ 1 ∨ vol.sectorsPerFat + 2^21 ≤ 2^32

instance : Decidable vol.CopyApart := inferInstanceAs (Decidable (_ ∨ _))

/-- A value that ends a chain or is the number of a FAT entry. -/
def InFat (v : Nat) : Prop := v < 2 ∨ clusterBad ≤ v ∨ v < vol.fatEntries

variable {vol} {d : Drive} {c v first : Nat}

private theorem add32_left_inj {a j k : Nat} (hj : j < 2^32) (hk : k < 2^32)
    (h : add32 a j = add32 a k) : j = k := by
  unfold add32 at h
  omega

private theorem fatSector_wrapped (vol : Volume) (hb : c < clusterBad) :
    vol.fatSector c = add32 vol.fatLba (c / entriesPerSector) ∧ fatOffset c = 4 * (c % entriesPerSector) ∧
      c / entriesPerSector < 2^21 := by
  have hdiv : c * 4 / sectorSize = c / entriesPerSector := by
    unfold sectorSize entriesPerSector sectorSize; omega
  unfold clusterBad at hb
  unfold fatSector fatOffset
  rw [mul32_eq (by omega), hdiv]
  unfold sectorSize entriesPerSector sectorSize
  exact ⟨rfl, by omega, by omega⟩

private theorem sector_lt (hc : c < vol.fatEntries) : c / entriesPerSector < vol.sectorsPerFat :=
  Nat.div_lt_of_lt_mul (by rw [Nat.mul_comm]; exact hc)

private theorem nextCluster_value (hw : d.Works) (hc : c < vol.fatEntries) (hb : c < clusterBad) :
    vol.nextCluster d c = vol.fatValue d c := by
  obtain ⟨hsec, hoff, -⟩ := fatSector_wrapped vol hb
  rw [nextCluster, (shows_sized vol hw).read_eq, hsec, hoff, fatValue, if_pos hc]

/-- A sector that is not of the first FAT does not show in it. -/
private theorem fatValue_update_of_ne {lba : Nat} (hne : ∀ j < vol.sectorsPerFat, add32 vol.fatLba j ≠ lba)
    (buf : View) : vol.fatValue { d with sectors := Function.update d.sectors lba buf } = vol.fatValue d := by
  funext x
  by_cases hx : x < vol.fatEntries
  · simp [fatValue, hx, Function.update_of_ne (hne _ (sector_lt hx))]
  · simp [fatValue, hx]

private theorem fatValue_set_entry (hfat : vol.sectorsPerFat < 2^32) (hc : c < vol.fatEntries) (v : Nat) :
    vol.fatValue { d with
      sectors := Function.update d.sectors (add32 vol.fatLba (c / entriesPerSector))
        (setFatEntry (d.sectors (add32 vol.fatLba (c / entriesPerSector))) (4 * (c % entriesPerSector)) v) } =
      Function.update (vol.fatValue d) c (v % 2^28) := by
  funext x
  by_cases hx : x < vol.fatEntries
  · simp only [fatValue, hx, if_true]
    by_cases hxc : x = c
    · subst hxc
      rw [Function.update_self, Function.update_self, setFatEntry_load]
    · rw [Function.update_of_ne hxc]
      by_cases hj : x / entriesPerSector = c / entriesPerSector
      · have hmod : x % entriesPerSector ≠ c % entriesPerSector := by
          intro hm
          apply hxc
          rw [← Nat.div_add_mod x entriesPerSector, ← Nat.div_add_mod c entriesPerSector, hj, hm]
        rw [hj, Function.update_self, setFatEntry_load_of_ne _ _ hmod, fatValue, if_pos hx, hj]
      · have hne : add32 vol.fatLba (x / entriesPerSector) ≠ add32 vol.fatLba (c / entriesPerSector) :=
          fun he => hj (add32_left_inj ((sector_lt hx).trans hfat) ((sector_lt hc).trans hfat) he)
        rw [Function.update_of_ne hne, fatValue, if_pos hx]
  · have hxc : x ≠ c := fun he => hx (he ▸ hc)
    simp [fatValue, hx, Function.update_of_ne hxc]

private theorem writeFat_value (hfat : vol.sectorsPerFat < 2^32) (ha : vol.CopyApart) (hw : d.Works)
    (hc : c < vol.fatEntries) (hb : c < clusterBad) (v : Nat) :
    (vol.writeFat d c v).2.Works ∧
      vol.fatValue (vol.writeFat d c v).2 = Function.update (vol.fatValue d) c (v % 2^28) := by
  obtain ⟨hsec, hoff, hlow⟩ := fatSector_wrapped vol hb
  have hsh := shows_sized vol hw
  have hset := fatValue_set_entry (d := d) hfat hc v
  unfold Volume.writeFat
  rw [hsh.read_eq, hsec, hoff]
  generalize c / entriesPerSector = k at hlow hset ⊢
  dsimp only
  rw [hsh.write_eq]
  dsimp only
  split
  · next hf =>
    have hroom := ha.resolve_left (by omega)
    have hsh' := shows_sized vol (d := { d with
      sectors := Function.update d.sectors (add32 vol.fatLba k)
        (setFatEntry (d.sectors (add32 vol.fatLba k)) (4 * (c % entriesPerSector)) v) }) hw
    -- the copy is `sectorsPerFat` behind a sector of the first 2^21
    have hcopy : add32 (add32 vol.fatLba k) vol.sectorsPerFat = add32 vol.fatLba (k + vol.sectorsPerFat) := by
      unfold add32
      omega
    rw [hsh'.write_eq, hcopy]
    refine ⟨hw, ?_⟩
    rw [fatValue_update_of_ne (fun j hj he => ?_), hset]
    have := add32_left_inj (by omega) (by omega) he
    omega
  · exact ⟨hw, hset⟩

/-! Freeing: a cluster that was visited before is free by then. -/

private def nonFree (vol : Volume) (fat : Nat → Nat) : Finset Nat :=
  (Finset.range (min vol.fatEntries clusterBad)).filter (fat · ≠ 0)

private theorem nonFree_update {fat : Nat → Nat} (hc : c < vol.fatEntries) (hb : c < clusterBad)
    (hne : fat c ≠ 0) :
    (nonFree vol (Function.update fat c 0)).card < (nonFree vol fat).card := by
  have hmem : c ∈ nonFree vol fat := by
    rw [nonFree, Finset.mem_filter, Finset.mem_range]
    exact ⟨by omega, hne⟩
  have herase : nonFree vol (Function.update fat c 0) = (nonFree vol fat).erase c := by
    ext x
    rw [Finset.mem_erase, nonFree, nonFree, Finset.mem_filter, Finset.mem_filter]
    by_cases hx : x = c
    · subst hx
      simp
    · simp [hx]
  rw [herase]
  exact Finset.card_erase_lt_of_mem hmem

/-- The FAT in which the clusters of the walk from `first` are free. -/
private def Freed (fat fat' : Nat → Nat) (first : Nat) : Prop :=
  ∀ c, (OnWalk fat Stops first c → fat' c = 0) ∧ (¬ OnWalk fat Stops first c → fat' c = fat c)

/-- Freeing the start and then the rest of the walk. -/
private theorem Freed.head {fat fat' : Nat → Nat} (hin : 2 ≤ first ∧ first < clusterBad)
    (h : Freed (Function.update fat first 0) fat' (fat first)) : Freed fat fat' first := by
  have hgo : ¬ Stops first := not_not_intro hin
  have hcut : ∀ x, Function.update fat first 0 x = fat x ∨ Stops (Function.update fat first 0 x) := by
    intro x
    by_cases hx : x = first
    · subst hx
      exact .inr (by simp [Stops])
    · exact .inl (Function.update_of_ne hx _ _)
  intro c
  by_cases hrest : OnWalk (Function.update fat first 0) Stops (fat first) c
  · exact ⟨fun _ => (h c).1 hrest, fun hno => absurd ((hrest.of_cut hcut).head hgo) hno⟩
  · by_cases hcf : c = first
    · subst hcf
      refine ⟨fun _ => ?_, fun hno => absurd (.refl hgo) hno⟩
      rw [(h c).2 hrest, Function.update_self]
    · refine ⟨fun hwalk => ?_, fun _ => by rw [(h c).2 hrest, Function.update_of_ne hcf]⟩
      obtain hc | hnext := (OnWalk.iff_head hgo).mp hwalk
      · exact absurd hc hcf
      · exact absurd ((hnext.cut 0).resolve_left hcf) hrest

private theorem Freed.stopped {fat : Nat → Nat} (h : Stops first) : Freed fat fat first :=
  fun _ => ⟨fun hw => absurd h hw.not_stop_start, fun _ => rfl⟩

private theorem freeClusterChain_freed (hfat : vol.sectorsPerFat < 2^32) (ha : vol.CopyApart) (hw : d.Works)
    (hval : ∀ c < vol.fatEntries, vol.InFat (vol.fatValue d c)) (hfirst : vol.InFat first) {fuel : Nat}
    (hfuel : (nonFree vol (vol.fatValue d)).card + 1 < fuel) :
    ∃ d', vol.freeClusterChain d fuel first = some d' ∧ Freed (vol.fatValue d) (vol.fatValue d') first := by
  induction fuel generalizing d first with
  | zero => omega
  | succ fuel ih =>
    rw [Volume.freeClusterChain]
    by_cases hin : 2 ≤ first ∧ first < clusterBad
    · have hlt : first < vol.fatEntries := by
        unfold InFat at hfirst
        omega
      obtain ⟨hw', hvalue⟩ := writeFat_value hfat ha hw hlt hin.2 0
      rw [Nat.zero_mod] at hvalue
      have hval' : ∀ c < vol.fatEntries, vol.InFat (vol.fatValue (vol.writeFat d first 0).2 c) := by
        intro c hc
        rw [hvalue]
        by_cases hcf : c = first
        · subst hcf
          rw [Function.update_self]
          exact .inl (by decide)
        · rw [Function.update_of_ne hcf]
          exact hval c hc
      rw [if_pos hin, nextCluster_value hw hlt hin.2]
      by_cases hz : vol.fatValue d first = 0
      · -- the cluster was free: the walk ends behind it
        obtain ⟨fuel, rfl⟩ : ∃ m, fuel = m + 1 := ⟨fuel - 1, by omega⟩
        refine ⟨_, by rw [hz, Volume.freeClusterChain, if_neg (by omega)], .head hin ?_⟩
        rw [hvalue]
        exact .stopped (by rw [hz]; simp [Stops])
      · obtain ⟨d', he, hfreed⟩ := ih hw' hval' (hval first hlt) (by
          have := nonFree_update hlt hin.2 hz
          rw [hvalue]
          omega)
        rw [hvalue] at hfreed
        exact ⟨d', he, hfreed.head hin⟩
    · exact ⟨d, if_neg hin, .stopped hin⟩

/-- What freeing from `first` is for: the clusters on the walk become free and no other value changes. -/
def FreesWalk (vol : Volume) (d d' : Drive) (first : Nat) : Prop :=
  ∀ c < vol.fatEntries,
    (vol.fatValue d' c = 0 ↔ vol.fatValue d c = 0 ∨ OnWalk (vol.fatValue d) Stops first c) ∧
    (¬ OnWalk (vol.fatValue d) Stops first c → vol.fatValue d' c = vol.fatValue d c)

private theorem freeClusterChain_ends (hfat : vol.sectorsPerFat < 2^32) (ha : vol.CopyApart) (hw : d.Works)
    (hval : ∀ c < vol.fatEntries, vol.InFat (vol.fatValue d c)) (hfirst : vol.InFat first) {fuel : Nat}
    (hfuel : chainFuel ≤ fuel) :
    ∃ d', vol.freeClusterChain d fuel first = some d' ∧ vol.FreesWalk d d' first := by
  have hcard : (nonFree vol (vol.fatValue d)).card ≤ clusterBad := by
    refine (Finset.card_filter_le _ _).trans ?_
    rw [Finset.card_range]
    exact Nat.min_le_right _ _
  have hroom : (nonFree vol (vol.fatValue d)).card + 1 < fuel := by
    unfold clusterBad at hcard
    unfold chainFuel at hfuel
    omega
  obtain ⟨d', he, hfreed⟩ := freeClusterChain_freed hfat ha hw hval hfirst hroom
  refine ⟨d', he, fun c _ => ⟨?_, (hfreed c).2⟩⟩
  by_cases hwalk : OnWalk (vol.fatValue d) Stops first c
  · simp [(hfreed c).1 hwalk, hwalk]
  · simp [(hfreed c).2 hwalk, hwalk]

/-- A drive whose FAT has ones in its first sector and zeros behind it. -/
def onesInFront (vol : Volume) : Drive where
  sectors lba i := if lba = add32 vol.fatLba 0 ∧ i % 4 = 0 then 1 else 0
  readFails _ := false
  writeFails _ := false

theorem onesInFront_works (vol : Volume) : (onesInFront vol).Works := ⟨fun _ => rfl, fun _ => rfl⟩

private theorem onesInFront_load (lba e : Nat) :
    ((onesInFront vol).sectors lba).load32 (4 * e) = if lba = add32 vol.fatLba 0 then 1 else 0 := by
  have h0 : 4 * e % 4 = 0 := by omega
  have h1 : (4 * e + 1) % 4 ≠ 0 := by omega
  have h2 : (4 * e + 2) % 4 ≠ 0 := by omega
  have h3 : (4 * e + 2 + 1) % 4 ≠ 0 := by omega
  simp only [View.load32, View.load16, onesInFront, h0, h1, h2, h3, and_true, and_false, if_false]
  split <;> rfl

private theorem onesInFront_value (hfat : vol.sectorsPerFat < 2^32) (hc : c < vol.fatEntries) :
    vol.fatValue (onesInFront vol) c = if c < entriesPerSector then 1 else 0 := by
  have hsec : add32 vol.fatLba (c / entriesPerSector) = add32 vol.fatLba 0 ↔ c < entriesPerSector := by
    have hlt := sector_lt hc
    constructor
    · intro he
      have hz := add32_left_inj (by omega) (by decide) he
      exact (Nat.div_eq_zero_iff_lt (by decide)).mp hz
    · intro hlow
      rw [Nat.div_eq_of_lt hlow]
  rw [fatValue, if_pos hc, onesInFront_load]
  simp only [hsec]
  split <;> rfl

/-- The copy of a later sector gets to the first one of the FAT, and a value that is
not on the walk is lost. -/
private theorem freeing_clears_front (hfat : vol.sectorsPerFat < 2^32) (ha : ¬ vol.CopyApart)
    {d' : Drive} {fuel : Nat}
    (hfree : vol.freeClusterChain (onesInFront vol) (fuel + 2)
      ((2^32 - vol.sectorsPerFat) * entriesPerSector) = some d') :
    vol.fatValue d' 2 = 0 := by
  unfold CopyApart at ha
  have hin : 2 ≤ (2^32 - vol.sectorsPerFat) * entriesPerSector ∧
      (2^32 - vol.sectorsPerFat) * entriesPerSector < clusterBad := by
    unfold entriesPerSector sectorSize clusterBad
    omega
  have hc : (2^32 - vol.sectorsPerFat) * entriesPerSector < vol.fatEntries := by
    unfold fatEntries entriesPerSector sectorSize
    omega
  have h2 : 2 < vol.fatEntries := by omega
  have hw := onesInFront_works vol
  have hsh := shows_sized vol hw
  obtain ⟨hsec, hoff, -⟩ := fatSector_wrapped vol hin.2
  have hnext : vol.nextCluster (onesInFront vol) ((2^32 - vol.sectorsPerFat) * entriesPerSector) = 0 := by
    rw [nextCluster_value hw hc hin.2, onesInFront_value hfat hc,
      if_neg (by unfold entriesPerSector sectorSize; omega)]
  rw [Nat.mul_div_cancel _ (by decide)] at hsec
  rw [Nat.mul_mod_left, Nat.mul_zero] at hoff
  have hother : add32 vol.fatLba (2^32 - vol.sectorsPerFat) ≠ add32 vol.fatLba 0 := by
    intro he
    have := add32_left_inj (by omega) (by decide) he
    omega
  have hcopy : add32 (add32 vol.fatLba (2^32 - vol.sectorsPerFat)) vol.sectorsPerFat = add32 vol.fatLba 0 := by
    unfold add32
    omega
  rw [Volume.freeClusterChain, if_pos hin, hnext, Volume.freeClusterChain, if_neg (by omega)] at hfree
  cases hfree
  unfold Volume.writeFat
  rw [hsh.read_eq, hsec, hoff]
  dsimp only
  rw [hsh.write_eq]
  dsimp only
  rw [if_pos (by omega), (shows_sized vol (d := { onesInFront vol with
    sectors := Function.update (onesInFront vol).sectors (add32 vol.fatLba (2^32 - vol.sectorsPerFat))
      (setFatEntry ((onesInFront vol).sectors (add32 vol.fatLba (2^32 - vol.sectorsPerFat))) 0 0) })
        hw).write_eq, hcopy]
  dsimp only
  have hkeep := setFatEntry_load_of_ne ((onesInFront vol).sectors (add32 vol.fatLba (2^32 - vol.sectorsPerFat)))
    0 (by decide : 2 ≠ 0)
  rw [onesInFront_load, if_neg hother] at hkeep
  rw [fatValue, if_pos h2, Nat.div_eq_of_lt (by decide : 2 < entriesPerSector)]
  dsimp only
  rw [Function.update_self, Nat.mod_eq_of_lt (by decide : 2 < entriesPerSector), hkeep, Nat.zero_mod]

private theorem copy_loses_value (hfat : vol.sectorsPerFat < 2^32) (ha : ¬ vol.CopyApart) :
    (∀ c < vol.fatEntries, vol.InFat (vol.fatValue (onesInFront vol) c)) ∧
      vol.InFat ((2^32 - vol.sectorsPerFat) * entriesPerSector) ∧
      ¬ ∃ d', vol.freeClusterChain (onesInFront vol) (chainFuel + 2)
        ((2^32 - vol.sectorsPerFat) * entriesPerSector) =
        some d' ∧ vol.FreesWalk (onesInFront vol) d' ((2^32 - vol.sectorsPerFat) * entriesPerSector) := by
  have hwrap := ha
  unfold CopyApart at hwrap
  have hc : (2^32 - vol.sectorsPerFat) * entriesPerSector < vol.fatEntries := by
    unfold fatEntries entriesPerSector sectorSize
    omega
  have hgo : ¬ Stops ((2^32 - vol.sectorsPerFat) * entriesPerSector) := by
    unfold Stops entriesPerSector sectorSize clusterBad
    omega
  have hfar : ¬ (2^32 - vol.sectorsPerFat) * entriesPerSector < entriesPerSector := by
    unfold entriesPerSector sectorSize
    omega
  have h2 : 2 < vol.fatEntries := by
    unfold Stops at hgo
    omega
  refine ⟨fun c hc => ?_, .inr (.inr hc), ?_⟩
  · rw [onesInFront_value hfat hc]
    left
    split <;> omega
  · rintro ⟨d', hfree, hvalues⟩
    have hlost := freeing_clears_front hfat ha hfree
    have hwas : vol.fatValue (onesInFront vol) 2 = 1 := by rw [onesInFront_value hfat h2, if_pos (by decide)]
    -- the walk ends behind its start
    have hnot : ¬ OnWalk (vol.fatValue (onesInFront vol)) Stops
      ((2^32 - vol.sectorsPerFat) * entriesPerSector) 2 := by
      intro hwalk
      rcases (OnWalk.iff_head hgo).mp hwalk with he | hrest
      · exact hfar (he ▸ by decide)
      · rw [onesInFront_value hfat hc, if_neg hfar] at hrest
        exact hrest.not_stop_start (by simp [Stops])
    rw [(hvalues 2 h2).2 hnot, hwas] at hlost
    exact absurd hlost (by decide)

/-- Exactly where the copy of the FAT stays apart from it, `fat32_free_cluster_chain`
works for all contents: whatever shape the chains have, it returns, then the clusters it
came to are free besides those that were, and no other value changed. -/
theorem freeing_ends_and_frees_walk_iff (hfat : vol.sectorsPerFat < 2^32) :
    (∀ (d : Drive) (first fuel : Nat), d.Works → (∀ c < vol.fatEntries, vol.InFat (vol.fatValue d c)) →
      vol.InFat first → chainFuel ≤ fuel →
      ∃ d', vol.freeClusterChain d fuel first = some d' ∧ vol.FreesWalk d d' first) ↔ vol.CopyApart := by
  refine ⟨fun hall => ?_, fun ha d first fuel hw hval hfirst hfuel => ?_⟩
  · by_contra ha
    obtain ⟨hval, hfirst, hnot⟩ := copy_loses_value hfat ha
    exact hnot (hall _ _ _ (onesInFront_works vol) hval hfirst (by omega))
  · exact freeClusterChain_ends hfat ha hw hval hfirst hfuel

/-! Walking through a directory. -/

/-- The entries of a cluster, in order. -/
def clusterEntries (vol : Volume) (d : Drive) (c : Nat) : List DirEntry :=
  (List.range vol.sectorsPerCluster).flatMap fun s =>
    (List.range slotsPerSector).map fun e => entryAt (d.sectors (add32 (vol.clusterToLba c) s)) e

/-- The chain comes to an end, or to a cluster with an entry at which the walk stops. -/
def WalkEnds (vol : Volume) (d : Drive) (c : Nat) (stop : DirEntry → Bool) : Prop :=
  (∃ l, Linked (vol.nextCluster d) Stops c l) ∨
    ∃ x, OnWalk (vol.nextCluster d) Stops c x ∧ ∃ e ∈ vol.clusterEntries d x, stop e

section iterate
variable {σ : Type} {cb : DirEntry → Nat → Nat → σ → Bool × σ} {stop : DirEntry → Bool}
  (hw : d.Works) (hcb : ∀ e lba idx ctx, (cb e lba idx ctx).1 = stop e)
include hw hcb

private theorem iterateCluster_fst (vol : Volume) (c : Nat) (ctx : σ) :
    (vol.iterateCluster cb d (vol.clusterToLba c) ctx).1 = (vol.clusterEntries d c).any stop := by
  rw [Volume.iterateCluster, clusterEntries, List.any_flatMap]
  refine scan_fst _ (fun ctx s _ => ?_) ctx
  rw [(shows_sized vol hw).read_eq, List.any_map]
  exact scan_fst (f := fun ctx e => cb (entryAt (d.sectors (add32 (vol.clusterToLba c) s)) e) _ e ctx) _
    (fun ctx e _ => hcb ..) ctx

/-- The first `k` clusters of the walk are passed or end it. -/
private theorem dirIterate_isSome {fuel k : Nat} (hk : k < fuel) {c : Nat} {ctx : σ}
    (h : Stops ((vol.nextCluster d)^[k] c) ∨ ∃ e ∈ vol.clusterEntries d ((vol.nextCluster d)^[k] c), stop e) :
    (vol.dirIterate cb d fuel c ctx).isSome := by
  induction fuel generalizing k c ctx with
  | zero => omega
  | succ fuel ih =>
    rw [Volume.dirIterate]
    split
    · next hin =>
      have hfst := iterateCluster_fst hw hcb vol c ctx
      rcases hit : vol.iterateCluster cb d (vol.clusterToLba c) ctx with ⟨_ | _, ctx'⟩
      · rw [hit] at hfst
        cases k with
        | zero =>
          rcases h with hs | ⟨e, he, hse⟩
          · exact absurd hin hs
          · have hany : (vol.clusterEntries d c).any stop = true := List.any_eq_true.mpr ⟨e, he, hse⟩
            rw [hany] at hfst
            cases hfst
        | succ k => exact ih (Nat.lt_of_succ_lt_succ hk) h
      · rfl
    · rfl

private theorem ends_of_isSome {fuel c : Nat} {ctx : σ} (h : (vol.dirIterate cb d fuel c ctx).isSome) :
    Ends (vol.nextCluster d) Stops (fun x => ∃ e ∈ vol.clusterEntries d x, stop e) c := by
  induction fuel generalizing c ctx with
  | zero => cases h
  | succ fuel ih =>
    rw [Volume.dirIterate] at h
    split at h
    · next hin =>
      have hfst := iterateCluster_fst hw hcb vol c ctx
      rcases hit : vol.iterateCluster cb d (vol.clusterToLba c) ctx with ⟨_ | _, ctx'⟩
      · rw [hit] at h
        exact .step (not_not_intro hin) (ih h)
      · rw [hit] at hfst
        exact .mark (not_not_intro hin) (List.any_eq_true.mp hfst.symm)
    · next hin => exact .stop hin

/-- The walk ends within `chainFuel` steps, or not at all. -/
theorem dirIterate_ends_iff (c : Nat) (ctx : σ) :
    ((∃ fuel, (vol.dirIterate cb d fuel c ctx).isSome) ↔ vol.WalkEnds d c stop) ∧
      ((vol.dirIterate cb d chainFuel c ctx).isSome ↔ vol.WalkEnds d c stop) := by
  have hends : ∀ fuel, (vol.dirIterate cb d fuel c ctx).isSome → vol.WalkEnds d c stop :=
    fun fuel h => ends_iff.mp (ends_of_isSome hw hcb h)
  have hall : vol.WalkEnds d c stop → (vol.dirIterate cb d chainFuel c ctx).isSome := by
    intro h
    have hrange : ∀ x, ¬ Stops x → x ∈ Finset.Ico 2 clusterBad := fun x hx => Finset.mem_Ico.mpr (not_not.mp hx)
    obtain ⟨k, hk, hstop⟩ := (ends_iff.mpr h).exists_iterate _ hrange
    rw [Nat.card_Ico] at hk
    refine dirIterate_isSome hw hcb ?_ hstop
    unfold clusterBad at hk
    unfold chainFuel
    omega
  exact ⟨⟨fun ⟨fuel, h⟩ => hends fuel h, fun h => ⟨_, hall h⟩⟩, hends _, hall⟩

end iterate

/-- Where each of the callbacks makes the walk stop. -/
theorem dirSearchCb_free_fst (e : DirEntry) (lba idx : Nat) (ctx : Option Found) :
    (dirSearchCb .findFree e lba idx ctx).1 = (e.isFree || e.isEnd) := by
  rw [dirSearchCb]
  split <;> simp_all

theorem dirSearchCb_match_fst (raw : RawName) (e : DirEntry) (lba idx : Nat) (ctx : Option Found) :
    (dirSearchCb (.findMatch raw) e lba idx ctx).1 = (e.isEnd || e.isLive && e.rawName == raw) := by
  unfold dirSearchCb DirEntry.isLive
  dsimp only
  cases e.isEnd <;> cases e.isFree <;> cases e.isPlain <;> by_cases h : e.rawName = raw <;> simp [h]

theorem enumCountCb_fst (e : DirEntry) (lba idx n : Nat) : (enumCountCb e lba idx n).1 = e.isEnd := by
  unfold enumCountCb
  cases e.isEnd <;> cases e.isFree || !e.isPlain <;> rfl

theorem enumFillCb_fst (e : DirEntry) (lba idx : Nat) (entries : List FsEntry) :
    (enumFillCb e lba idx entries).1 = e.isEnd := by
  unfold enumFillCb
  cases e.isEnd <;> cases e.isFree || !e.isPlain <;> rfl

/-- `fat32_dir_iterate` returns exactly if the chain has an end or a cluster with
an entry at which the callback stops: END for the listings, END or the entry
looked for in a search by name, END or a deleted entry in a search for a slot. -/
theorem directory_walk_ends_iff (hw : d.Works) (c : Nat) :
    (∀ ctx, (∃ fuel, (vol.dirIterate (dirSearchCb .findFree) d fuel c ctx).isSome) ↔
      vol.WalkEnds d c fun e => e.isFree || e.isEnd) ∧
    (∀ raw ctx, (∃ fuel, (vol.dirIterate (dirSearchCb (.findMatch raw)) d fuel c ctx).isSome) ↔
      vol.WalkEnds d c fun e => e.isEnd || e.isLive && e.rawName == raw) ∧
    (∀ ctx, (∃ fuel, (vol.dirIterate enumCountCb d fuel c ctx).isSome) ↔ vol.WalkEnds d c DirEntry.isEnd) ∧
    ∀ ctx, (∃ fuel, (vol.dirIterate enumFillCb d fuel c ctx).isSome) ↔ vol.WalkEnds d c DirEntry.isEnd :=
  ⟨fun ctx => (dirIterate_ends_iff hw dirSearchCb_free_fst c ctx).1,
    fun raw ctx => (dirIterate_ends_iff hw (dirSearchCb_match_fst raw) c ctx).1,
    fun ctx => (dirIterate_ends_iff hw enumCountCb_fst c ctx).1,
    fun ctx => (dirIterate_ends_iff hw enumFillCb_fst c ctx).1⟩

end Volume

/-- A FAT whose entries point to themselves, in front of directory entries that are all live. -/
def loopDrive : Drive where
  sectors lba i := if lba < 2 then (if i % 4 = 0 then .ofNat (i / 4) else 0) else 0x41
  readFails _ := false
  writeFails _ := false

theorem loopDrive_works : loopDrive.Works := ⟨fun _ => rfl, fun _ => rfl⟩

private theorem loopDrive_walk : ∀ x, OnWalk (smallVolume.nextCluster loopDrive) Volume.Stops 2 x → x = 2 := by
  intro x hx
  refine hx.mem_of_closed (S := {2}) ?_ rfl
  rintro y rfl -
  show smallVolume.nextCluster loopDrive 2 = 2
  decide +kernel

/-- A listing of a directory whose only cluster is its own successor does not return. -/
theorem looping_directory_never_ends :
    ¬ ∀ (vol : Volume) (d : Drive) (c : Nat), d.Works →
      (∀ ctx, ∃ fuel, (vol.dirIterate (dirSearchCb .findFree) d fuel c ctx).isSome) ∧
      (∀ raw ctx, ∃ fuel, (vol.dirIterate (dirSearchCb (.findMatch raw)) d fuel c ctx).isSome) ∧
      (∀ ctx, ∃ fuel, (vol.dirIterate enumCountCb d fuel c ctx).isSome) ∧
      ∀ ctx, ∃ fuel, (vol.dirIterate enumFillCb d fuel c ctx).isSome := by
  intro hall
  obtain ⟨-, -, hcount, -⟩ := hall smallVolume loopDrive 2 loopDrive_works
  rcases (Volume.dirIterate_ends_iff loopDrive_works Volume.enumCountCb_fst 2 0).1.mp
    (hcount 0) with hl | ⟨x, hx, hend⟩
  · have hself : smallVolume.nextCluster loopDrive 2 = 2 := by decide +kernel
    have hgo : ¬ Volume.Stops 2 := by unfold Volume.Stops; decide
    refine not_linked_of_cycle ?_ hl
    rw [hself]
    exact .refl hgo
  · obtain rfl := loopDrive_walk x hx
    revert hend
    decide +kernel

/-- The small volume has a root directory of one cluster. -/
theorem directory_walk_ends_iff_small :
    ∃ fuel, (smallVolume.dirIterate enumCountCb smallDrive fuel 2 0).isSome := by
  refine ((Volume.directory_walk_ends_iff small_works 2).2.2.1 0).mpr (.inl ⟨[2], rfl, ?_, ?_⟩)
  · unfold Volume.Stops
    decide
  · show ¬ (2 ≤ smallVolume.nextCluster smallDrive 2 ∧ smallVolume.nextCluster smallDrive 2 < clusterBad)
    decide +kernel

private theorem loopDrive_fat (c : Nat) (hc : c < 128) : smallVolume.fatValue loopDrive c = c := by
  revert c
  decide +kernel

/-- Cluster 3 is its own successor and is the only one that is freed. -/
theorem freeing_ends_and_frees_walk_iff_loop :
    ∃ d', smallVolume.freeClusterChain loopDrive chainFuel 3 = some d' ∧ smallVolume.fatValue d' 3 = 0 ∧
      smallVolume.fatValue d' 4 = 4 := by
  have hval : ∀ c < smallVolume.fatEntries, smallVolume.InFat (smallVolume.fatValue loopDrive c) := by
    intro c hc
    rw [loopDrive_fat c hc]
    exact .inr (.inr hc)
  have hgo : ¬ Volume.Stops 3 := by unfold Volume.Stops; decide
  have hnot : ¬ OnWalk (smallVolume.fatValue loopDrive) Volume.Stops 3 4 := by
    intro hw
    have hmem : 4 ∈ ({3} : Set Nat) := by
      refine hw.mem_of_closed (S := {3}) ?_ rfl
      rintro y rfl -
      exact loopDrive_fat 3 (by decide)
    cases hmem
  have hfirst : smallVolume.InFat 3 := .inr (.inr (by decide))
  have hsmall : smallVolume.sectorsPerFat < 2^32 := by decide
  obtain ⟨d', he, hfat⟩ := (Volume.freeing_ends_and_frees_walk_iff hsmall).mpr (by decide)
    loopDrive 3 chainFuel loopDrive_works hval hfirst (le_refl chainFuel)
  refine ⟨d', he, (hfat 3 (by decide)).1.mpr (.inr (.refl hgo)), ?_⟩
  rw [(hfat 4 (by decide)).2 hnot, loopDrive_fat 4 (by decide)]

/-- A volume whose boot sector gives two FATs of 2^32 - 1 sectors. -/
def wrappingVolume : Volume := ⟨512, 1, 2, 32, 30, 2, 2^32 - 1, one_sectorPerCluster_lt⟩

/-- Freeing cluster 128 there writes the second sector of the FAT over the first. -/
theorem wrapping_copy_loses_values :
    ¬ ∀ (vol : Volume) (d : Drive) (first fuel : Nat), vol.sectorsPerFat < 2^32 → d.Works →
      (∀ c < vol.fatEntries, vol.InFat (vol.fatValue d c)) → vol.InFat first → chainFuel ≤ fuel →
      ∃ d', vol.freeClusterChain d fuel first = some d' ∧ vol.FreesWalk d d' first := by
  intro hall
  have hsize : wrappingVolume.sectorsPerFat < 2^32 := by decide
  obtain ⟨hval, hfirst, hnot⟩ := Volume.copy_loses_value hsize (by decide)
  exact hnot (hall wrappingVolume (Volume.onesInFront wrappingVolume) 128 (chainFuel + 2) (by decide)
    (Volume.onesInFront_works _) hval hfirst (by omega))

end GeckoOS.Fs.Fat32
