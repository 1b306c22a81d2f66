import GeckoOS.Drivers.Ata
import GeckoOS.Fs.Remount

/-! `drives_init`: which drives it registers, and which of them is mounted at the start. -/
namespace GeckoOS.Drivers.Ata
open Lib Fs.Fat32

/-! ### The table of drives -/

inductive TableType where
  | none | mbr

/-- A partition with its number of sectors. -/
structure TableEntry where
  partition : Partition
  size : Nat

/-- The number of the drive and its partitions. Every sector has 512 bytes, and every
drive the functions of this driver. -/
structure Kdrive where
  userdata1 : Nat
  type : TableType
  partitions : List TableEntry

/-- The static variables of ata.c and drives.c with the channel. -/
structure DriveState where
  drivePresent : Nat → Bool
  drives : List Kdrive
  channel : Channel

def maxDrives : Nat := 32
def mbrOffset : Nat := 446

/-- `load_parameters` for a first sector. -/
def loadParameters (drive : Nat) (sector : View) : Kdrive :=
  if sector 510 = 0x55 ∧ sector 511 = 0xaa then
    ⟨drive, .mbr, (List.range 4).map fun i =>
      ⟨⟨.fat32, sector.load32 (mbrOffset + 16 * i + 8)⟩, sector.load32 (mbrOffset + 16 * i + 12)⟩⟩
  else ⟨drive, .none, [⟨⟨.fat32, 0⟩, 0⟩]⟩

/-- Nothing is said if the first sector cannot be read: its place on the stack holds anything. -/
def registerKdrive (drive : Nat) (s : DriveState) : Option DriveState :=
  if s.drives.length < maxDrives then
    match ataReadSectors s.drivePresent drive 0 1 s.channel with
    | (none, _) => none
    | (some sector, ch) =>
      some { s with drives := s.drives ++ [loadParameters drive (.ofBytes sector)], channel := ch }
  else some s

def getKdrive (s : DriveState) (i : Nat) : Option Kdrive := s.drives[i]?

def selectMaster : UInt8 := 0xA0
def selectSlave : UInt8 := 0xB0

/-- `ata_check_drive` on the primary bus. An even number selects the slave. -/
def ataCheckDrive (drive : Nat) (s : DriveState) : Option (Bool × DriveState) :=
  let s := { s with drivePresent := Function.update s.drivePresent drive false }
  let ch := s.channel.outb .hddevsel (if drive % 2 = 0 then selectSlave else selectMaster)
  let (status, ch) := ch.inbStatus
  if status = 0xFF then some (false, { s with channel := ch })
  else
    let (ready, ch) := ataWaitNotBusy ch
    if !ready then some (false, { s with channel := ch })
    else
      let (ready, ch) := ataWaitNotBusy (issue drive 0 1 cmdReadPio ch)
      if !ready then some (false, { s with channel := ch })
      else
        let (status, ch) := ch.inbStatus
        if status &&& srErr ≠ 0 ∨ status &&& srDrq = 0 then some (false, { s with channel := ch })
        else
          let (_, ch) := readWords wordsPerSector ch []
          let s := { s with drivePresent := Function.update s.drivePresent drive true, channel := ch }
          (registerKdrive drive s).map fun s => (true, s)

/-- `ata_init` with the number of drives that it finds. -/
def ataInit (s : DriveState) : Option (Nat × DriveState) := do
  let s ← registerKdrive 1 { s with drivePresent := Function.update s.drivePresent 1 true }
  let (_, s) ← ataCheckDrive 0 s
  let (_, s) ← ataCheckDrive 1 s
  return ((s.drivePresent 0).toNat + (s.drivePresent 1).toNat, s)

def drivesInit (s : DriveState) : Option DriveState := (ataInit { s with drives := [] }).map Prod.snd

/-- A registered drive as the file system sees it. -/
def DriveState.drive (s : DriveState) (i : Nat) : Option Drive :=
  (getKdrive s i).map fun k => s.channel.drives (decide (k.userdata1 ≠ 0))

/-- The loop of `kmain` and of `cmd_fsmount`, which ends with the first drive that there is. -/
def mountFirst (s : DriveState) : List Nat → Option Mounted → Option Mounted
  | [], fs => fs
  | i :: is, fs =>
    if (fsmount (s.drive i) fs).1 ≠ 0 then (fsmount (s.drive i) fs).2.2
    else mountFirst s is (fsmount (s.drive i) fs).2.2

/-! ### What a probe finds -/

variable {ch ch' : Channel} {drive : Nat} {s : DriveState}

theorem loadParameters_userdata1 (drive : Nat) (sector : View) :
    (loadParameters drive sector).userdata1 = drive := by
  unfold loadParameters
  split <;> rfl

theorem registerKdrive_eq (h : Prompt s.channel) (hpresent : s.drivePresent drive = true)
    (hatt : s.channel.attached (decide (drive ≠ 0)) = true) (hroom : s.drives.length < maxDrives) :
    ∃ k ch', registerKdrive drive s = some { s with drives := s.drives ++ [k], channel := ch' } ∧
      k.userdata1 = drive ∧ s.channel.Kept ch' := by
  obtain ⟨ch', hread, hkept⟩ := ataReadSectors_eq 1 hpresent h hatt (by decide) (by decide : 0 < 2^28)
  rw [registerKdrive, if_pos hroom, hread]
  exact ⟨_, ch', rfl, loadParameters_userdata1 .., hkept⟩

theorem issue_absent (hb : ch.busy = 0) (hatt : ch.attached (decide (drive ≠ 0)) = false) (lba : Nat)
    (count cmd : UInt8) : issue drive lba count cmd ch = ch.addressed drive lba count := by
  rw [issue_eq hb, Channel.command, if_pos (by rw [attached_addressed, hatt]; rfl)]

/-- After the command of the probe the drive offers data if it is there. -/
private theorem probe_drq (hb : ch.busy = 0) : (issue drive 0 1 cmdReadPio ch).ready.status &&& srDrq ≠ 0 ↔
    ch.attached (decide (drive ≠ 0)) = true := by
  have hthere := attached_addressed ch drive 0 1
  cases hatt : ch.attached (decide (drive ≠ 0)) with
  | false =>
    obtain ⟨-, -, hdrq⟩ := @status_ready (ch.addressed drive 0 1).ready rfl
    rw [issue_absent hb hatt]
    exact iff_of_false (fun h => Bool.false_ne_true ((hthere.trans hatt).symm.trans (hdrq.mp h).1))
      Bool.false_ne_true
  | true =>
    obtain ⟨-, -, hdrq⟩ := @status_ready ((ch.addressed drive 0 1).wait (.read 0 1 0)).ready rfl
    rw [issue_read hb hatt (by decide) (by decide)]
    exact iff_of_true (hdrq.mpr ⟨hthere.trans hatt, Transfer.noConfusion⟩) rfl

/-- The drive is found if it is there. -/
theorem ataCheckDrive_eq (drive : Nat) (h : Prompt s.channel) (hroom : s.drives.length < maxDrives) :
    ∃ ks ch', ataCheckDrive drive s = some (s.channel.attached (decide (drive ≠ 0)),
        { drivePresent := Function.update s.drivePresent drive (s.channel.attached (decide (drive ≠ 0)))
          drives := s.drives ++ ks
          channel := ch' }) ∧
      ks.map Kdrive.userdata1 = (if s.channel.attached (decide (drive ≠ 0)) then [drive] else []) ∧
      s.channel.Kept ch' := by
  have hselect := kept_outb h .hddevsel (if drive % 2 = 0 then selectSlave else selectMaster)
  unfold ataCheckDrive
  dsimp only
  generalize s.channel.outb .hddevsel (if drive % 2 = 0 then selectSlave else selectMaster) = c at hselect ⊢
  have hlooked := hselect.trans (kept_inbStatus hselect.prompt)
  have hready := hlooked.trans (kept_ready hlooked.prompt)
  have hissued := hready.trans (kept_issue hready.prompt drive 0 1 cmdReadPio)
  have hdone := hissued.trans (kept_ready hissued.prompt)
  obtain ⟨-, herr, -⟩ := @status_ready (issue drive 0 1 cmdReadPio c.inbStatus.2.ready).ready rfl
  have hdrq := @probe_drq c.inbStatus.2.ready drive rfl
  have hstatus : c.inbStatus.1 ≠ 0xFF := status_ne c
  rw [if_neg hstatus, ataWaitNotBusy_eq hlooked.prompt]
  dsimp only
  rw [if_neg (by decide), ataWaitNotBusy_eq hissued.prompt]
  dsimp only
  rw [if_neg (by decide), inbStatus_ready rfl]
  dsimp only
  rw [congrFun hready.attached] at hdrq
  cases hatt : s.channel.attached (decide (drive ≠ 0)) with
  | false =>
    have hnone : (issue drive 0 1 cmdReadPio c.inbStatus.2.ready).ready.status &&& srDrq = 0 := by
      by_contra hne
      exact Bool.false_ne_true (hatt.symm.trans (hdrq.mp hne))
    rw [if_pos (.inr hnone)]
    exact ⟨[], _, by rw [List.append_nil], rfl, hdone⟩
  | true =>
    have hsome : ¬ ((issue drive 0 1 cmdReadPio c.inbStatus.2.ready).ready.status &&& srErr ≠ 0 ∨
        (issue drive 0 1 cmdReadPio c.inbStatus.2.ready).ready.status &&& srDrq = 0) :=
      not_or.mpr ⟨not_not.mpr herr, hdrq.mpr hatt⟩
    have htransfer : (issue drive 0 1 cmdReadPio c.inbStatus.2.ready).ready.transfer = .read 0 1 0 := by
      rw [issue_read rfl ((congrFun hready.attached _).trans hatt) (by decide) (by decide)]
      rfl
    have hdrained := hdone.trans (kept_afterRead hdone.prompt 0 1)
    rw [if_neg hsome, readWords_eq wordsPerSector 0 [] rfl htransfer rfl (by decide)]
    dsimp only
    obtain ⟨k, ch', hreg, hk, hkept⟩ := @registerKdrive_eq drive
      { drivePresent := Function.update (Function.update s.drivePresent drive false) drive true
        drives := s.drives
        channel := (issue drive 0 1 cmdReadPio c.inbStatus.2.ready).ready.afterRead 0 1 } hdrained.prompt
      (Function.update_self ..) ((congrFun hdrained.attached _).trans hatt) hroom
    rw [hreg, Function.update_idem]
    exact ⟨[k], ch', rfl, congrArg (· :: []) hk, hdrained.trans hkept⟩

/-! ### The start -/

/-- The slave is registered unseen, and then what the two probes find. -/
theorem ataInit_eq (h : Prompt s.channel) (hslave : s.channel.attached true = true)
    (hroom : s.drives.length + 2 < maxDrives) :
    ∃ ks present ch', ataInit s = some ((s.channel.attached false).toNat + 1, ⟨present, s.drives ++ ks, ch'⟩) ∧
      ks.map Kdrive.userdata1 = 1 :: ((if s.channel.attached false then [0] else []) ++ [1]) ∧
      present 0 = s.channel.attached false ∧ s.channel.Kept ch' := by
  obtain ⟨k, ch₁, hreg, hk, hkept₁⟩ := @registerKdrive_eq 1
    { s with drivePresent := Function.update s.drivePresent 1 true } h
      (Function.update_self 1 true s.drivePresent) hslave
    (by dsimp only; omega)
  obtain ⟨ks₀, ch₂, hmaster, hks₀, hkept₂⟩ := @ataCheckDrive_eq
    { drivePresent := Function.update s.drivePresent 1 true, drives := s.drives ++ [k], channel := ch₁ }
      0 hkept₁.prompt
    (by rw [List.length_append, List.length_singleton]; omega)
  have hfirst : ch₁.attached (decide (0 ≠ 0)) = s.channel.attached false := congrFun hkept₁.attached _
  have hlength : ks₀.length ≤ 1 := by
    rw [← List.length_map Kdrive.userdata1, hks₀]
    split <;> simp
  have hkept := hkept₁.trans hkept₂
  obtain ⟨ks₁, ch₃, hsecond, hks₁, hkept₃⟩ := @ataCheckDrive_eq
    { drivePresent := Function.update (Function.update s.drivePresent 1 true) 0 (ch₁.attached (decide (0 ≠ 0)))
      drives := s.drives ++ [k] ++ ks₀
      channel := ch₂ } 1 hkept.prompt
    (by rw [List.length_append, List.length_append, List.length_singleton]; omega)
  have hother : ch₂.attached (decide (1 ≠ 0)) = true := (congrFun hkept.attached _).trans hslave
  rw [hother] at hks₁ hsecond
  rw [hfirst] at hks₀ hmaster hsecond
  refine ⟨[k] ++ ks₀ ++ ks₁, Function.update (Function.update (Function.update s.drivePresent 1 true) 0
    (s.channel.attached false)) 1 true, ch₃, ?_, ?_, ?_, hkept.trans hkept₃⟩
  · unfold ataInit
    rw [hreg, Option.bind_eq_bind, Option.bind_some]
    dsimp only
    rw [hmaster, Option.bind_eq_bind, Option.bind_some]
    dsimp only
    rw [hsecond, Option.bind_some]
    dsimp only
    rw [Function.update_self, Function.update_of_ne (by decide), Function.update_self]
    simp only [List.append_assoc]
    rfl
  · rw [List.map_append, List.map_append, hks₀, hks₁, List.map_singleton, hk]
    rfl
  · rw [Function.update_of_ne (by decide), Function.update_self]

theorem Channel.Kept.drives (h : ch.Kept ch') : ch'.drives = ch.drives := by
  unfold Channel.drives
  rw [h.sectors]

/-- A drive that is there ends the loop, whether or not it can be mounted. -/
theorem mountFirst_cons {i : Nat} {d : Drive} (h : s.drive i = some d) (is : List Nat) (fs : Option Mounted) :
    mountFirst s (i :: is) fs = fsDriveOpen d := by
  rw [mountFirst, h, fsmount]
  cases fsDriveOpen d with
  | none => exact if_pos (by decide : (-1 : Int) ≠ 0)
  | some m => exact if_pos (by decide : (1 : Int) ≠ 0)

/-- With a slave, `drives_init` finds the drives that are there and leaves them to the
requests of the file system. The first drive that is then tried is the master if there is
one, and otherwise the slave. It alone decides what is mounted: with a master that holds
no volume the slave stays unmounted. -/
theorem drives_found (h : Prompt s.channel) (hslave : s.channel.attached true = true) :
    ∃ s', drivesInit s = some s' ∧
      s'.drives.map Kdrive.userdata1 = (if s.channel.attached false then [1, 0, 1] else [1, 1]) ∧
      Attached s'.drivePresent s.channel.drives s'.channel ∧
      ∀ is fs, mountFirst s' (1 :: is) fs = fsDriveOpen (s.channel.drives (!s.channel.attached false)) := by
  obtain ⟨ks, present, ch', hinit, hks, hmaster, hkept⟩ := @ataInit_eq { s with drives := [] } h hslave
    (by decide : 0 + 2 < maxDrives)
  have hnumbers : ks.map Kdrive.userdata1 = (if s.channel.attached false then [1, 0, 1] else [1, 1]) := by
    rw [hks]
    split <;> rfl
  refine ⟨⟨present, ks,
    ch'⟩, by rw [drivesInit, hinit]; rfl, hnumbers, ?_, fun is fs => mountFirst_cons ?_ is fs⟩
  · rw [← hkept.drives]
    refine attached_drives hkept.prompt fun drive hdrive => ?_
    rw [hkept.attached]
    by_cases hzero : drive = 0
    · subst hzero
      exact hmaster.symm.trans hdrive
    · rw [decide_eq_true hzero]
      exact hslave
  · have hsecond : (ks.map Kdrive.userdata1)[1]? = some (if s.channel.attached false then 0 else 1) := by
      rw [hnumbers]
      split <;> rfl
    rw [List.getElem?_map] at hsecond
    obtain ⟨k, hget, hk⟩ := Option.map_eq_some_iff.mp hsecond
    rw [DriveState.drive, getKdrive, hget, Option.map_some, hk, hkept.drives]
    cases s.channel.attached false <;> rfl

/-- A slave alone, with a volume. -/
def slaveAlone : DriveState where
  drivePresent _ := false
  drives := []
  channel := { emptyChannel with attached := id, sectors := fun _ => bootDrive.sectors }

theorem drives_found_slave : ∃ s', drivesInit slaveAlone = some s' ∧ s'.drives.map Kdrive.userdata1 = [1, 1] ∧
    Attached s'.drivePresent slaveAlone.channel.drives s'.channel ∧
    ∀ is fs, mountFirst s' (1 :: is) fs = fsDriveOpen (slaveAlone.channel.drives true) :=
  drives_found ⟨by decide, fun n => by unfold slaveAlone emptyChannel busyTimeout; dsimp only; omega⟩ rfl

end GeckoOS.Drivers.Ata
