import GeckoOS.Fs.CatalogueRuns
import GeckoOS.Fs.Commands
import GeckoOS.Fs.Mount

/-! What the driver leaves alone: every sector that belongs neither to a FAT nor to a
cluster. The boot sector is one of them, and so a restart between calls is not seen. -/
namespace GeckoOS.Fs.Fat32
open Lib

namespace Volume
variable (vol : Volume)

/-- The sector belongs to a FAT or to a cluster. -/
def Uses (lba : Nat) : Prop :=
  (vol.fatLba ≤ lba ∧ lba < vol.fatLba + vol.numFats * vol.sectorsPerFat) ∨
    ∃ c s, vol.InData c s ∧ lba = vol.dataSector c s

/-- Every other sector is as in `d₀`. -/
def SameOutside (d₀ d : Drive) : Prop := ∀ lba, ¬ vol.Uses lba → d.sectors lba = d₀.sectors lba

variable {vol} {d₀ d d' : Drive} {lba : Nat}

namespace SameOutside

theorem refl (d : Drive) : vol.SameOutside d d := fun _ _ => rfl

theorem write (h : vol.SameOutside d₀ d) (hlba : vol.Uses lba) {buf : View} (hw : d.write lba buf = some d') :
    vol.SameOutside d₀ d' := by
  unfold Drive.write at hw
  split at hw
  · cases hw
  · cases hw
    intro x hx
    have hne : x ≠ lba := fun heq => hx (heq ▸ hlba)
    exact (Function.update_of_ne hne ..).trans (h x hx)

theorem put (h : vol.SameOutside d₀ d) (hlba : vol.Uses lba) (buf : View) :
    vol.SameOutside d₀ (d.put lba buf) := by
  unfold Drive.put
  cases hw : d.write lba buf with
  | none => exact h
  | some d' => exact h.write hlba hw

section fats
variable (hv : vol.Opened)
include hv

/-- The sectors of the FATs, as the driver computes them. -/
private theorem uses_fat {j : Nat} (hj : j < vol.sectorsPerFat) :
    vol.Uses (add32 vol.fatLba j) ∧ (1 < vol.numFats →
      vol.Uses (add32 (add32 vol.fatLba vol.sectorsPerFat) j) ∧
      vol.Uses (add32 (add32 vol.fatLba j) vol.sectorsPerFat)) := by
  obtain ⟨-, hlt⟩ := hv.geometry.fat_lt (j := j) hj
  change vol.fatLba + vol.numFats * vol.sectorsPerFat < 2^32 at hlt
  rcases hv.fats with hf | hf
  · rw [hf] at hlt
    refine ⟨.inl ?_, fun h => absurd h (by omega)⟩
    rw [add32_eq (by omega), hf]
    omega
  · rw [hf] at hlt
    have hfirst : add32 vol.fatLba j = vol.fatLba + j := add32_eq (by omega)
    have hsecond : add32 vol.fatLba vol.sectorsPerFat = vol.fatLba + vol.sectorsPerFat := add32_eq (by omega)
    rw [hfirst, hsecond, add32_eq (by omega), add32_eq (by omega)]
    refine ⟨.inl ?_, fun _ => ⟨.inl ?_, .inl ?_⟩⟩ <;> rw [hf] <;> omega

private theorem writeFat {c : Nat} (h : vol.SameOutside d₀ d) (hc : c < vol.fatEntries) (v : Nat) :
    vol.SameOutside d₀ (vol.writeFat d c v).2 := by
  have hj : mul32 c 4 / sectorSize < vol.sectorsPerFat := by
    unfold Volume.fatEntries entriesPerSector at hc
    unfold mul32 sectorSize at *
    omega
  obtain ⟨hlba, hcopy⟩ := uses_fat hv hj
  unfold Volume.writeFat Volume.fatSector
  split
  · exact h
  · dsimp only
    split
    · exact h
    · next d₁ hwrite =>
      have hfirst : vol.SameOutside d₀ d₁ := h.write hlba hwrite
      split
      · next hf =>
        split
        · exact hfirst
        · next d₂ hwrite₂ => exact hfirst.write (hcopy hf).2 hwrite₂
      · exact hfirst

private theorem allocFrom (h : vol.SameOutside d₀ d) (j n : Nat) (hj : j + n = vol.sectorsPerFat) :
    vol.SameOutside d₀ (vol.allocFrom d j n).2 := by
  induction n generalizing j with
  | zero => exact h
  | succ n ih =>
    obtain ⟨hlba, hcopy⟩ := uses_fat hv (j := j) (by omega)
    rw [Volume.allocFrom]
    split
    · exact h
    · dsimp only
      split
      · exact ih (j + 1) (by omega)
      · split
        · exact h
        · next d₁ hwrite =>
          have hfirst : vol.SameOutside d₀ d₁ := h.write hlba hwrite
          dsimp only
          split
          · next hf => exact hfirst.put (hcopy hf).1 _
          · exact hfirst

/-- No write of the driver touches another sector. -/
theorem survives (d₀ : Drive) : vol.Survives (vol.SameOutside d₀) where
  fat _ _ v _ h hc := writeFat hv h hc v
  alloc _ _ h := allocFrom hv h 0 _ (Nat.zero_add _)
  data _ c s buf _ h hd := h.put (.inr ⟨c, s, hd, hv.geometry.clusterToLba_eq (c := c) (s := s) hd⟩) buf

end fats
end SameOutside
end Volume

variable {vol : Volume} {d d' : Drive} {img : Image} {root : List Nat} {own : Slot → List Nat}
  {c c' : Catalogue}

/-- One call on a sound drive. -/
private theorem Volume.Sound.step (hv : vol.Opened) (hs : vol.Sound root d')
    (hsame : vol.SameOutside d d') (call : Call) :
    ∃ z d'', vol.exec d' call = some (z, d'') ∧ vol.Sound root d'' ∧ vol.SameOutside d d'' := by
  obtain ⟨z, d'', he, hs', hkept⟩ := hs.exec hv call
  exact ⟨z, d'', he, hs', hkept _ (Volume.SameOutside.survives hv d) hsame⟩

/-- On a volume in which no chain runs into the root directory, every sequence of calls
returns and has left every sector as it was that belongs neither to a FAT nor to a
cluster. -/
theorem calls_stay_inside (hv : vol.Opened) (hw : d.Works) (ha : vol.RootApart (vol.image d) root)
    (calls : List Call) :
    ∃ answers d', Machine.run vol.exec d calls = some (answers, d') ∧
      ∀ lba, ¬ vol.Uses lba → d'.sectors lba = d.sectors lba := by
  obtain ⟨answers, d', hrun, -, hsame⟩ := Machine.run_total (m := vol.exec)
    (I := fun e => vol.Sound root e ∧ vol.SameOutside d e)
    (fun e call hi => hi.1.step hv hi.2 call) ⟨⟨hw, ha⟩, .refl d⟩ calls
  exact ⟨answers, d', hrun, hsame⟩

/-- The first sector behind the small volume. -/
theorem calls_stay_inside_small :
    ∃ answers d', Machine.run smallVolume.exec smallDrive
      [.create [66] [1, 2, 3], .create [67] [4], .delete [65]] =
      some (answers, d') ∧ d'.sectors 128 = smallDrive.sectors 128 := by
  obtain ⟨answers, d', hrun, hsame⟩ := calls_stay_inside small_opened small_works small_rootApart
    [.create [66] [1, 2, 3], .create [67] [4], .delete [65]]
  refine ⟨answers, d', hrun, hsame 128 ?_⟩
  rintro (⟨-, hlt⟩ | ⟨c, s, ⟨-, hc, hs⟩, heq⟩)
  · change 128 < 0 + 2 * 1 at hlt
    omega
  · change c < 128 at hc
    change s < 1 at hs
    change 128 = 2 + (c - 2) * 1 + s at heq
    omega

/-! ### Mounting again -/

theorem Volume.Geometry.opened (hg : vol.Geometry) : vol.Opened where
  toConsistent := hg.toConsistent
  bytes := by
    rw [hg.bytes]
    decide
  cluster := hg.cluster

private theorem chain_linked {fat : Nat → Nat} {first : Nat} {l : List Nat} (hg : vol.Geometry)
    (h : vol.Chain fat first l) : Linked fat Volume.Stops first l := by
  have hent := hg.entries
  refine h.linked.of_stop (fun x hx => ?_) fun x hx hstop => hstop ?_
  · change clusterEoc ≤ x at hx
    unfold Volume.Stops
    unfold clusterEoc clusterBad at *
    omega
  · obtain ⟨h2, hlt⟩ := h.inside x hx
    omega

/-- Chains that are disjoint from the root directory do not run into it. -/
theorem Volume.Layout.rootApart (hg : vol.Geometry) (hl : vol.Layout img root own)
    (hval : Volume.ValuesInside vol img) :
    vol.RootApart img root where
  rootChain := hl.rootChain
  values := hval
  firsts := by
    intro t ht hlive
    rcases hl.owned t ht hlive with ⟨hzero, -, -⟩ | ⟨hne, hchain⟩
    · have hroot := hl.rootChain.inside _ (mem_slots.mp ht).1
      omega
    · obtain ⟨c, l, hown⟩ := List.exists_cons_of_ne_nil hne
      have hfirst := (hchain.tail hown).1
      rw [hfirst]
      exact (hchain.inside c (hown ▸ List.mem_cons_self)).2
  apart := by
    intro t ht hlive c hc hwalk
    rcases hl.owned t ht hlive with ⟨hzero, -, -⟩ | ⟨-, hchain⟩
    · refine absurd ?_ hwalk.not_stop_start
      rw [hzero]
      unfold Volume.Stops
      omega
    · exact hl.apartRoot t ht hlive ((chain_linked hg hchain).onWalk_iff.mp hwalk) hc

inductive FsType where
  | none | fat12 | fat16 | fat32
  deriving DecidableEq

structure Partition where
  type : FsType
  lba : Nat

def fsPartitionOpen (d : Drive) (partition : Partition) : Option Mounted :=
  match partition.type with
  | .fat32 => (driveOpen d partition.lba).toOption
  | .none | .fat12 | .fat16 => none

def fsDriveOpen (d : Drive) : Option Mounted := fsPartitionOpen d ⟨.fat32, 0⟩

/-- The result of `fsmount`, what it prints, and the file system that is mounted then.
Without a drive the old one stays. -/
def fsmount (drive : Option Drive) (fs : Option Mounted) : Int × Report × Option Mounted :=
  match drive with
  | none => (0, ⟨false, "\n"⟩, fs)
  | some d =>
    match fsDriveOpen d with
    | none => (-1, ⟨true, "\nFilesystem mount failed. Is fat32.img a valid FAT32 image?\n"⟩, none)
    | some m => (1, ⟨false, "\nFilesystem mounted successfully.\n\n"⟩, some m)

/-- A call, or a restart of the machine, which mounts the drive again. -/
inductive Event where
  | call (call : Call)
  | restart

/-- The driver with the file system that is mounted. -/
def driver : Machine Event Int (Option Mounted × Drive) := fun s event =>
  match event with
  | .call call => s.1.bind fun m => (m.exec s.2 call).map fun r => (r.1, some m, r.2)
  | .restart => some ((fsmount (some s.2) none).1, (fsmount (some s.2) none).2.2, s.2)

/-- On a catalogue a restart does nothing. -/
def lasting (need : Nat → Nat) : Machine Event Int Catalogue := fun c event =>
  match event with
  | .call call => c.step need call
  | .restart => some (1, c)

def Event.Plain : Event → Prop
  | .call c => c.Plain
  | .restart => True

theorem fsDriveOpen_eq {m : Mounted} : fsDriveOpen d = some m ↔ driveOpen d 0 = .ok m := by
  unfold fsDriveOpen fsPartitionOpen
  cases driveOpen d 0 with
  | error e => simp [Except.toOption]
  | ok m' => simp [Except.toOption]

/-- Mounting reads the boot sector only. -/
theorem driveOpen_congr {lba : Nat} (hreads : d'.readFails lba = d.readFails lba)
    (h : d'.sectors lba = d.sectors lba) :
    driveOpen d' lba = driveOpen d lba := by
  have hread : d'.read lba = d.read lba := by rw [Drive.read, Drive.read, hreads, h]
  unfold driveOpen
  rw [hread]

/-- The mounted file system is the one at the start, and the drive, whose boot sector
has not changed, carries the catalogue. -/
structure Lasts (m : Mounted) (d₀ : Drive) (root : List Nat) (c : Catalogue)
  (s : Option Mounted × Drive) : Prop where
  mounted : s.1 = some m
  carries : m.Carries root c s.2
  sound : m.Sound root s.2
  same : m.SameOutside d₀ s.2

/-- A boot sector in front of the FATs. -/
private theorem Lasts.driveOpen {m : Mounted} {s : Option Mounted × Drive} (h : Lasts m d root c s)
    (hw : d.Works)
    (hg : m.Geometry) (hres : 0 < m.fatLba) : driveOpen s.2 0 = driveOpen d 0 := by
  refine driveOpen_congr ((h.sound.works.1 0).trans (hw.1 0).symm) (h.same 0 ?_)
  rintro (⟨hle, -⟩ | ⟨c, s, -, heq⟩)
  · omega
  · have hap := hg.apart
    unfold Volume.dataSector at heq
    omega

theorem driver_refines {m : Mounted} (hm : driveOpen d 0 = .ok m) (hw : d.Works) (hg : m.Geometry)
    (hres : 0 < m.fatLba) :
    Machine.RefinedBy (lasting m.clustersNeeded) driver Event.Plain (Lasts m d root) := by
  intro c s event z c' hplain hl hstep
  cases event with
  | call call =>
    obtain ⟨d', he, hc'⟩ := exec_refines hg root (show call.Plain from hplain) hl.carries hstep
    obtain ⟨z', d'', he', hs', hsame'⟩ := hl.sound.step hg.opened hl.same call
    obtain ⟨rfl, rfl⟩ := Prod.mk.inj (Option.some.inj (he.symm.trans he'))
    refine ⟨(some m, d'), ?_, rfl, hc', hs', hsame'⟩
    dsimp only [driver]
    rw [hl.mounted, Option.bind_some, he]
    rfl
  | restart =>
    obtain ⟨rfl, rfl⟩ := Prod.mk.inj (Option.some.inj hstep)
    have hopen : fsDriveOpen s.2 = some m := fsDriveOpen_eq.mpr ((hl.driveOpen hw hg hres).trans hm)
    refine ⟨(some m, s.2), ?_, rfl, hl.carries, hl.sound, hl.same⟩
    dsimp only [driver, fsmount]
    rw [hopen]

/-- Restarts between the calls are not seen: the volume is mounted again as it was, the
calls are answered as by the catalogue, and what it says at the end is on the drive. -/
theorem restarts_unseen {m : Mounted} (hm : driveOpen d 0 = .ok m) (hg : m.Geometry) (hres : 0 < m.fatLba)
    (h : m.Shows d img) (hl : m.Layout img root own) (hval : Volume.ValuesInside m.toVolume img)
    (hd : m.Distinct img root) (hs : m.Sized img root own) (hc : (m.catalogue img root own).Regular)
    {events : List Event} {answers : List Int} (hevents : ∀ event ∈ events, event.Plain)
    (hrun : Machine.run (lasting m.clustersNeeded) (m.catalogue img root own) events = some (answers, c)) :
    ∃ d' entries, Machine.run driver (some m, d) events = some (answers, some m, d') ∧
    m.Offers d' c entries := by
  have hw : d.Works := ⟨h.reads, h.writes⟩
  have hsound : m.Sound root d := ⟨hw, h.image.symm ▸ hl.rootApart hg hval⟩
  have hlasts : Lasts m d root (m.catalogue img root own) (some m, d) :=
    ⟨rfl, ⟨hc, img, own, h, hl, hd, hs, rfl⟩, hsound, .refl d⟩
  obtain ⟨⟨fs, d'⟩, hrun', hmounted, hcarries, -, -⟩ := (driver_refines hm hw hg hres).run hevents hlasts hrun
  obtain rfl : fs = some m := hmounted
  obtain ⟨entries, hoffers⟩ := hcarries.offers hg
  exact ⟨d', entries, hrun', hoffers⟩

/-- The small volume behind a boot sector. -/
def bootDrive : Drive where
  sectors lba :=
    if lba = 0 then fun i =>
      if i = 12 then 2
      else if i ∈ [13, 14, 36] then 1
      else if i ∈ [16, 44] then 2
      else if i = 32 then 129
      else 0
    else smallDrive.sectors (lba - 1)
  readFails _ := false
  writeFails _ := false

def bootMounted : Mounted where
  toVolume := { smallVolume with fatLba := 1, dataLba := 3 }
  partitionLba := 0
  totalSectors := 129

theorem boot_opens : driveOpen bootDrive 0 = .ok bootMounted := by
  have hread : bootDrive.read 0 = some (bootDrive.sectors 0) := rfl
  have h11 : (bootDrive.sectors 0).load16 11 = 512 := by decide +kernel
  have h13 : (bootDrive.sectors 0 13).toNat = 1 := by decide +kernel
  have h14 : (bootDrive.sectors 0).load16 14 = 1 := by decide +kernel
  have h16 : (bootDrive.sectors 0 16).toNat = 2 := by decide +kernel
  have h22 : (bootDrive.sectors 0).load16 22 = 0 := by decide +kernel
  have h32 : (bootDrive.sectors 0).load32 32 = 129 := by decide +kernel
  have h36 : (bootDrive.sectors 0).load32 36 = 1 := by decide +kernel
  have h44 : (bootDrive.sectors 0).load32 44 = 2 := by decide +kernel
  unfold driveOpen
  simp only [hread, h11, h13, h14, h16, h22, h32, h36, h44]
  have hfat : add32 0 1 = 1 := add32_eq (by decide)
  have hfats : mul32 2 1 = 2 := mul32_eq (by decide)
  have hdata : add32 1 2 = 3 := add32_eq (by decide)
  rw [if_neg (by decide), if_neg (by decide)]
  simp only [hfat, hfats, hdata]
  rfl

theorem boot_geometry : bootMounted.Geometry where
  bytes := rfl
  cluster := by decide
  fats := .inr rfl
  entries := by decide
  apart := by decide
  lba := by
    rintro c s ⟨-, hc, hs⟩
    change c < 128 at hc
    change s < 1 at hs
    change 3 + (c - 2) * 1 + s < 2^32
    omega

/-- Behind the boot sector it shows what the small drive does. -/
theorem boot_shows : bootMounted.Shows bootDrive (smallVolume.image smallDrive) where
  reads _ := rfl
  writes _ := rfl
  image := by
    have hsector : ∀ n, bootDrive.sectors (n + 1) = smallDrive.sectors n := fun n => by
      dsimp only [bootDrive]
      rw [if_neg (Nat.succ_ne_zero n), Nat.add_sub_cancel]
    have hfat : ∀ k, bootMounted.fatLba + k = smallVolume.fatLba + k + 1 := fun k => by
      change 1 + k = 0 + k + 1
      omega
    have hdata : ∀ c s, bootMounted.dataSector c s = smallVolume.dataSector c s + 1 := fun c s => by
      change 3 + (c - 2) * 1 + s = 2 + (c - 2) * 1 + s + 1
      omega
    unfold Volume.image
    simp only [hfat, hdata, hsector]
    rfl

theorem boot_layout : bootMounted.Layout (smallVolume.image smallDrive) [2] smallOwn where
  rootChain := ⟨small_layout.rootChain.linked, small_layout.rootChain.inside⟩
  ends := small_layout.ends
  owned t ht hlive := by
    rcases small_layout.owned t ht hlive with hnone | ⟨hne, hchain⟩
    · exact .inl hnone
    · exact .inr ⟨hne, hchain.linked, hchain.inside⟩
  apartRoot := small_layout.apartRoot
  apart := small_layout.apart

/-- B is created, found after a restart, and not created again. -/
theorem restarts_unseen_small :
    ∃ d' c entries, Machine.run driver (some bootMounted, bootDrive)
        [.call (.create [66] [1, 2, 3]), .restart, .call (.create [67] [4]), .call (.delete [66])] =
        some ([0, 1, -1, 0], some bootMounted, d') ∧ bootMounted.Offers d' c entries := by
  have hname : ∀ b ∈ ([66, 67] : List UInt8), Is83 [b] [b] [] := fun b hb =>
    ⟨by simp, by simp, by simp, by revert b; simp [NameChar], by simp, rfl⟩
  have hplain : ∀ event ∈ [Event.call (.create [66] [1, 2, 3]), .restart, .call (.create [67] [4]),
      .call (.delete [66])], event.Plain := by
    simp only [List.mem_cons, List.not_mem_nil, or_false]
    rintro event (rfl | rfl | rfl | rfl)
    · exact ⟨⟨_, _, hname 66 (by simp)⟩, by decide⟩
    · trivial
    · exact ⟨⟨_, _, hname 67 (by simp)⟩, by decide⟩
    · exact ⟨⟨_, _, hname 66 (by simp)⟩, by decide⟩
  have hanswers : (Machine.run (lasting bootMounted.clustersNeeded)
      (bootMounted.catalogue (smallVolume.image smallDrive) [2] smallOwn)
      [.call (.create [66] [1, 2, 3]), .restart, .call (.create [67] [4]), .call (.delete [66])]).map Prod.fst =
      some [0, 1, -1, 0] := by
    decide +kernel
  obtain ⟨⟨answers, c⟩, hrun, rfl⟩ := Option.map_eq_some_iff.mp hanswers
  obtain ⟨d', entries, he, hoffers⟩ :=
    restarts_unseen boot_opens boot_geometry (by decide) boot_shows boot_layout
    small_rootApart.values small_names_distinct small_sized small_regular hplain hrun
  exact ⟨d', c, entries, he, hoffers⟩

end GeckoOS.Fs.Fat32
