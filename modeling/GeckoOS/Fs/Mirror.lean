import GeckoOS.Fs.Sound

/-! The two copies of the FAT: every write to one of them is followed by the same
write to the other, over whole runs of calls. -/
namespace GeckoOS.Fs.Fat32
open Lib

namespace Volume
variable (vol : Volume)

/-- The two copies are equal, sector by sector. -/
def Mirrored (d : Drive) : Prop :=
  ∀ j < vol.sectorsPerFat, ∀ i < sectorSize,
    d.sectors (vol.fatLba + vol.sectorsPerFat + j) i = d.sectors (vol.fatLba + j) i

/-- The top four bits of a FAT entry. -/
def topBits (d : Drive) (c : Nat) : Nat :=
  (d.sectors (vol.fatLba + c / entriesPerSector)).load32 (4 * (c % entriesPerSector)) / 2^28

/-- The copies are equal, and the top bits are those of `d₀`. -/
structure Copies (d₀ d : Drive) : Prop where
  mirrored : vol.Mirrored d
  top : ∀ c < vol.fatEntries, vol.topBits d c = vol.topBits d₀ c

variable {vol} {d₀ d : Drive} {c s v : Nat}

/-- An entry of a FAT sector keeps its top bits, whichever is changed. -/
private theorem setFatEntry_top (buf : View) (e e' v : Nat) :
    (setFatEntry buf (4 * e) v).load32 (4 * e') / 2^28 = buf.load32 (4 * e') / 2^28 := by
  by_cases he : e' = e
  · subst he
    have := buf.load32_lt (4 * e')
    rw [setFatEntry, View.load32_store32]
    omega
  · rw [setFatEntry_load_of_ne buf v he]

theorem Opened.fatSector_eq (hv : vol.Opened) (hc : c < vol.fatEntries) :
    vol.fatSector c = vol.fatLba + c / entriesPerSector ∧ fatOffset c = 4 * (c % entriesPerSector) ∧
      c / entriesPerSector < vol.sectorsPerFat :=
  hv.geometry.fatSector_eq hc

theorem Opened.fat_lt (hv : vol.Opened) (hf : vol.numFats = 2) {j : Nat} (hj : j < vol.sectorsPerFat) :
    vol.fatLba + 2 * vol.sectorsPerFat < 2^32 :=
  hf ▸ (hv.geometry.fat_lt hj).2

section copies
variable (hv : vol.Opened) (hf : vol.numFats = 2) (hw : d.Works) (h : vol.Copies d₀ d)
include hv hf hw h

/-- A sector behind the FATs replaced. -/
private theorem copies_put_data (hd : vol.InData c s) (buf : View) :
    vol.Copies d₀ (d.put (add32 (vol.clusterToLba c) s) buf) := by
  have hlba : add32 (vol.clusterToLba c) s = vol.dataSector c s := hv.geometry.clusterToLba_eq hd
  have hap := hv.apart
  rw [hf] at hap
  have hne : ∀ k < 2 * vol.sectorsPerFat, vol.fatLba + k ≠ vol.dataSector c s := by
    intro k hk
    unfold dataSector
    omega
  rw [(shows_sized vol hw).put_eq, hlba]
  refine ⟨fun j hj i hi => ?_, fun x hx => ?_⟩
  · dsimp only
    rw [Function.update_of_ne (hne j (by omega)), Nat.add_assoc, Function.update_of_ne (hne _ (by omega)),
      ← Nat.add_assoc]
    exact h.mirrored j hj i hi
  · have hj : x / entriesPerSector < vol.sectorsPerFat := (hv.fatSector_eq hx).2.2
    rw [← h.top x hx]
    unfold topBits
    dsimp only
    rw [Function.update_of_ne (hne _ (by omega))]

omit hf hw in
/-- The same sector of both FATs replaced, the top bits of its entries kept. -/
private theorem copies_update_both {j : Nat} (hj : j < vol.sectorsPerFat) {buf : View}
    (htop : ∀ e < entriesPerSector, buf.load32 (4 * e) / 2^28 =
      (d.sectors (vol.fatLba + j)).load32 (4 * e) / 2^28) :
    vol.Copies d₀ { d with
      sectors := Function.update (Function.update d.sectors (vol.fatLba + j) buf)
        (vol.fatLba + vol.sectorsPerFat + j) buf } := by
  refine ⟨fun k hk i hi => ?_, fun x hx => ?_⟩
  · dsimp only
    by_cases hkj : k = j
    · subst hkj
      rw [Function.update_self, Function.update_of_ne (by omega), Function.update_self]
    · rw [Function.update_of_ne (by omega), Function.update_of_ne (by omega), Function.update_of_ne (by omega),
        Function.update_of_ne (by omega)]
      exact h.mirrored k hk i hi
  · have hk : x / entriesPerSector < vol.sectorsPerFat := (hv.fatSector_eq hx).2.2
    rw [← h.top x hx]
    unfold topBits
    dsimp only
    rw [Function.update_of_ne (by omega)]
    by_cases hkj : x / entriesPerSector = j
    · rw [hkj, Function.update_self]
      exact htop _ (Nat.mod_lt _ (by decide))
    · rw [Function.update_of_ne (by omega)]

private theorem copies_writeFat (hc : c < vol.fatEntries) (v : Nat) : vol.Copies d₀ (vol.writeFat d c v).2 := by
  have hsh := shows_sized vol hw
  obtain ⟨hsec, hoff, hj⟩ := hv.fatSector_eq hc
  have hlt := hv.fat_lt hf hj
  have hboth := copies_update_both hv h hj fun e _ =>
    setFatEntry_top (d.sectors (vol.fatLba + c / entriesPerSector)) (c % entriesPerSector) e v
  have hmirror : add32 (vol.fatLba + c / entriesPerSector) vol.sectorsPerFat =
      vol.fatLba + vol.sectorsPerFat + c / entriesPerSector := by
    rw [add32_eq (by omega)]
    omega
  unfold Volume.writeFat
  rw [hsec, hoff, hsh.read_eq]
  dsimp only
  rw [hsh.write_eq]
  dsimp only
  rw [if_pos (by rw [hf]; decide), hmirror, Drive.write]
  dsimp only
  rw [hw.2]
  exact hboth

/-- The sector with the cluster that is taken is written to both FATs. -/
private theorem copies_allocFrom (n j : Nat) (hj : j + n = vol.sectorsPerFat) :
    vol.Copies d₀ (vol.allocFrom d j n).2 := by
  have hsh := shows_sized vol hw
  induction n generalizing j with
  | zero => exact h
  | succ n ih =>
    have hlt := hv.fat_lt hf (show j < vol.sectorsPerFat by omega)
    have hfirst : add32 vol.fatLba j = vol.fatLba + j := add32_eq (by omega)
    have hbase : add32 vol.fatLba vol.sectorsPerFat = vol.fatLba + vol.sectorsPerFat := add32_eq (by omega)
    have hsecond : add32 (vol.fatLba + vol.sectorsPerFat) j = vol.fatLba + vol.sectorsPerFat + j :=
      add32_eq (by omega)
    rw [Volume.allocFrom, hfirst, hsh.read_eq]
    dsimp only
    split
    · exact ih (j + 1) (by omega)
    · next e _ =>
      rw [hsh.write_eq]
      dsimp only
      rw [if_pos (by rw [hf]; decide), hbase, hsecond, Drive.put, Drive.write]
      dsimp only
      rw [hw.2]
      exact copies_update_both hv h (by omega) fun e' _ =>
        setFatEntry_top (d.sectors (vol.fatLba + j)) e e' clusterEoc

end copies

/-- With two FATs, every write of the driver keeps the copies. -/
theorem copies_survives (hv : vol.Opened) (hf : vol.numFats = 2) (d₀ : Drive) :
    vol.Survives (vol.Copies d₀) where
  fat _ _ v hw h hc := copies_writeFat hv hf hw h hc v
  alloc _ hw h := copies_allocFrom hv hf hw h vol.sectorsPerFat 0 (by omega)
  data _ _ _ buf hw h hd := copies_put_data hv hf hw h hd buf

end Volume

variable {vol : Volume} {d d' : Drive} {root : List Nat} {calls : List Call}

/-- On a volume with equal FAT copies, in which no chain runs into the root
directory, every sequence of calls, failed ones included, leaves the copies equal
and the top bits as they were; and the next call returns. -/
theorem fat_copies_identical (hv : vol.Opened) (hf : vol.numFats = 2) (hw : d.Works) (hm : vol.Mirrored d)
    (ha : vol.RootApart (vol.image d) root)
    (hrun : Run (fun d call d' => ∃ z, vol.exec d call = some (z, d')) d calls d') :
    vol.Mirrored d' ∧ (∀ c < vol.fatEntries, vol.topBits d' c = vol.topBits d c) ∧
      ∀ call, ∃ z d'', vol.exec d' call = some (z, d'') := by
  have hkept : vol.Sound root d' ∧ vol.Copies d d' := by
    apply hrun.invariant fun e => vol.Sound root e ∧ vol.Copies d e
    · rintro e call e' ⟨hs, hc⟩ ⟨z, hstep⟩
      obtain ⟨z', d'', heq, hs', hsurv⟩ := hs.exec hv call
      rw [hstep] at heq
      obtain ⟨-, rfl⟩ := Prod.mk.inj (Option.some.inj heq)
      exact ⟨hs', hsurv _ (Volume.copies_survives hv hf d) hc⟩
    · exact ⟨⟨hw, ha⟩, hm, fun _ _ => rfl⟩
  refine ⟨hkept.2.mirrored, hkept.2.top, fun call => ?_⟩
  obtain ⟨z, d'', heq, -⟩ := hkept.1.exec hv call
  exact ⟨z, d'', heq⟩

theorem small_mirrored : smallVolume.Mirrored smallDrive := by
  intro j hj i _
  obtain rfl : j = 0 := Nat.lt_one_iff.mp hj
  rfl

theorem fat_copies_identical_small :
    ∃ d', Run (fun d call d' => ∃ z, smallVolume.exec d call = some (z, d')) smallDrive smallCalls d' ∧
      smallVolume.Mirrored d' := by
  obtain ⟨d', hrun⟩ := small_run
  have hr := Machine.run_steps (fun d call _ z _ d' he =>
    (⟨z, he⟩ : ∃ z, smallVolume.exec d call = some (z, d'))) hrun
  exact ⟨d', hr, (fat_copies_identical small_opened rfl small_works small_mirrored small_rootApart hr).1⟩

/-! Without the last condition. -/

/-- A volume without free clusters whose only file, X, has the cluster of the root directory. -/
def crossDrive : Drive where
  sectors lba :=
    if lba < 2 then fun i => [0xF8, 0xFF, 0xFF, 0x0F].getD (i % 4) 0
    else if lba = 2 then storeEntry (fun _ => 0) 0 (newEntry (encode83Name [88]) attrArchive today 2 0)
    else fun _ => 0
  readFails _ := false
  writeFails _ := false

/-- X is deleted; the file Y takes the root's cluster and puts an entry Z there,
with the first cluster 128, which is in the second FAT; Z is deleted. -/
def crossCalls : List Call :=
  [.delete [88], .create [89]
    (List.replicate 32 0 ++ List.ofFn (newEntry (encode83Name [90]) attrArchive today 128 0)),
   .delete [90]]

private theorem cross_inside : smallVolume.Inside (smallVolume.image crossDrive) [2] where
  rootChain := ⟨⟨rfl, by decide, by change clusterEoc ≤ _; decide +kernel⟩, by decide⟩
  values := by
    change ∀ c < 128, _
    decide +kernel
  firsts := by decide +kernel

/-- Afterwards entry 0 of the second FAT is not that of the first. -/
theorem crossed_root_breaks_mirror :
    ¬ ∀ (vol : Volume) (d d' : Drive) (root : List Nat) (calls : List Call), vol.Opened → vol.numFats = 2 →
      d.Works → vol.Mirrored d → vol.Inside (vol.image d) root →
        Run (fun d call d' => ∃ z, vol.exec d call = some (z, d')) d calls d' →
      vol.Mirrored d' := by
  intro h
  have hbytes : (Machine.run smallVolume.exec crossDrive crossCalls).map
    (fun r => (r.2.sectors 0 0, r.2.sectors 1 0)) =
      some (0xF8, 0) := by decide +kernel
  obtain ⟨⟨answers, d'⟩, hd', hpair⟩ := Option.map_eq_some_iff.mp hbytes
  obtain ⟨hfirst, hsecond⟩ := Prod.mk.inj hpair
  have hm : d'.sectors 1 0 = d'.sectors 0 0 := h smallVolume crossDrive d' [2] crossCalls small_opened rfl
    ⟨fun _ => rfl, fun _ => rfl⟩ (fun j hj i _ => by
      obtain rfl : j = 0 := Nat.lt_one_iff.mp hj
      rfl) cross_inside (Machine.run_steps (fun _ _ _ z _ _ he => ⟨z, he⟩) hd') 0 (by decide) 0 (by decide)
  rw [hfirst, hsecond] at hm
  exact absurd hm (by decide)

end GeckoOS.Fs.Fat32
