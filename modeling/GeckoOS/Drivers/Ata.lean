import GeckoOS.Fs.Fat32
import GeckoOS.Lib.Machines

/-! The ATA driver and the two drives of the primary channel, which it reaches through
their registers. Whatever time the drives take, transfers of sectors act on them as
on the drives of the file system. -/
namespace GeckoOS.Drivers.Ata
open Lib

/-! ### The channel -/

/-- What a command has left to transfer: sectors, and words of the first of them. -/
inductive Transfer where
  | none
  | read (lba left words : Nat)
  | write (lba left : Nat) (words : List Nat)

/-- Which of the drives there are, the registers, the contents of the drives, the number
of times the status will still be busy, and how often it will be after each command and
sector to come. -/
structure Channel where
  attached : Bool → Bool
  hddevsel : UInt8
  seccount : UInt8
  lbaLo : UInt8
  lbaMid : UInt8
  lbaHi : UInt8
  sectors : Bool → Nat → View
  transfer : Transfer
  busy : Nat
  waits : Nat → Nat

inductive Reg where
  | hddevsel | seccount | lbaLo | lbaMid | lbaHi | command

def srBsy : UInt8 := 0x80
def srDrdy : UInt8 := 0x40
def srDrq : UInt8 := 0x08
def srErr : UInt8 := 0x01
def cmdReadPio : UInt8 := 0x20
def cmdWritePio : UInt8 := 0x30
def cmdFlush : UInt8 := 0xE7
def lbaMaster : UInt8 := 0xE0
def lbaSlave : UInt8 := 0xF0

namespace Channel
variable (ch : Channel)

/-- Whether the slave is selected. -/
def selected : Bool := ch.hddevsel &&& 0x10 != 0

/-- The address in the registers has 28 bits. -/
def address : Nat :=
  ch.lbaLo.toNat + 2^8 * ch.lbaMid.toNat + 2^16 * ch.lbaHi.toNat + 2^24 * (ch.hddevsel &&& 0x0F).toNat

/-- A count of zero stands for 256 sectors. -/
def count : Nat := if ch.seccount = 0 then 256 else ch.seccount.toNat

/-- The transfer goes on in this way when the drive is ready again. -/
def wait (transfer : Transfer) : Channel :=
  { ch with transfer := transfer, busy := ch.waits 0, waits := fun n => ch.waits (n + 1) }

def status : UInt8 :=
  if 0 < ch.busy then srBsy
  else if !ch.attached ch.selected then 0
  else match ch.transfer with
    | .none => srDrdy
    | .read .. | .write .. => srDrdy ||| srDrq

/-- Time passes with each look at the status. -/
def inbStatus : UInt8 × Channel := (ch.status, { ch with busy := ch.busy - 1 })

def command (v : UInt8) : Channel :=
  if !ch.attached ch.selected then ch
  else if v = cmdReadPio then ch.wait (.read ch.address ch.count 0)
  else if v = cmdWritePio then ch.wait (.write ch.address ch.count [])
  else if v = cmdFlush then ch.wait .none
  else ch

/-- A busy drive takes nothing. -/
def outb (reg : Reg) (v : UInt8) : Channel :=
  if 0 < ch.busy then ch
  else match reg with
    | .hddevsel => { ch with hddevsel := v }
    | .seccount => { ch with seccount := v }
    | .lbaLo => { ch with lbaLo := v }
    | .lbaMid => { ch with lbaMid := v }
    | .lbaHi => { ch with lbaHi := v }
    | .command => ch.command v

/-- Behind the last word of a sector the next one is fetched. -/
def inw : Nat × Channel :=
  match ch.transfer with
  | .read lba left words =>
    if 0 < ch.busy then (0, ch)
    else ((ch.sectors ch.selected lba).load16 (2 * words),
      if words + 1 < 256 then { ch with transfer := .read lba left (words + 1) }
      else if left = 1 then { ch with transfer := .none }
      else ch.wait (.read (lba + 1) (left - 1) 0))
  | .none | .write .. => (0, ch)

def store (lba : Nat) (sector : View) : Channel :=
  { ch with sectors := Function.update ch.sectors ch.selected (Function.update (ch.sectors ch.selected)
    lba sector) }

/-- With its last word a sector is stored. -/
def outw (v : Nat) : Channel :=
  match ch.transfer with
  | .write lba left words =>
    if 0 < ch.busy then ch
    else if words.length + 1 < 256 then { ch with transfer := .write lba left (words ++ [v]) }
    else
      let ch := ch.store lba (.ofBytes ((words ++ [v]).flatMap bytes16))
      ch.wait (if left = 1 then .none else .write (lba + 1) (left - 1) [])
  | .none | .read .. => ch

end Channel

/-! ### The driver -/

/-- `ata_wait_not_busy` with so many tries left. -/
def waitNotBusy : Nat → Channel → Bool × Channel
  | 0, ch => (false, ch)
  | timeout+1, ch =>
    let (status, ch) := ch.inbStatus
    if status = 0xFF then (false, ch)
    else if status &&& srBsy = 0 then (true, ch)
    else waitNotBusy timeout ch

def busyTimeout : Nat := 1000000
def ataWaitNotBusy : Channel → Bool × Channel := waitNotBusy busyTimeout

/-- `ata_poll_drq` with so many tries left. -/
def pollDrq : Nat → Channel → Bool × Channel
  | 0, ch => (false, ch)
  | timeout+1, ch =>
    let (status, ch) := ch.inbStatus
    if status &&& srErr ≠ 0 then (false, ch)
    else if status &&& srDrq ≠ 0 then (true, ch)
    else pollDrq timeout ch

def drqTimeout : Nat := 100000
def ataPollDrq : Channel → Bool × Channel := pollDrq drqTimeout

/-- The registers are written and the command given; the delay reads the control
port, which changes nothing. -/
def issue (drive lba : Nat) (count cmd : UInt8) (ch : Channel) : Channel :=
  let ch := ch.outb .hddevsel ((if drive ≠ 0 then lbaSlave else lbaMaster) ||| .ofNat (lba / 2^24 % 2^4))
  let ch := ch.outb .seccount count
  let ch := ch.outb .lbaLo (.ofNat lba)
  let ch := ch.outb .lbaMid (.ofNat (lba / 2^8))
  let ch := ch.outb .lbaHi (.ofNat (lba / 2^16))
  ch.outb .command cmd

def wordsPerSector : Nat := 256

/-- Words behind those in the buffer. -/
def readWords : Nat → Channel → List UInt8 → List UInt8 × Channel
  | 0, ch, buf => (buf, ch)
  | n+1, ch, buf =>
    let (word, ch) := ch.inw
    readWords n ch (buf ++ bytes16 word)

def readLoop : Nat → Channel → List UInt8 → Option (List UInt8) × Channel
  | 0, ch, buf => (some buf, ch)
  | count+1, ch, buf =>
    let (ready, ch) := ataWaitNotBusy ch
    if !ready then (none, ch)
    else
      let (ready, ch) := ataPollDrq ch
      if !ready then (none, ch)
      else
        let (buf, ch) := readWords wordsPerSector ch buf
        readLoop count ch buf

/-- `ata_read_sectors`; `none` is its result -1, and otherwise it fills the buffer. -/
def ataReadSectors (drivePresent : Nat → Bool) (drive lba : Nat) (count : UInt8) (ch : Channel) :
    Option (List UInt8) × Channel :=
  if !drivePresent drive then (none, ch)
  else
    let (ready, ch) := ataWaitNotBusy ch
    if !ready then (none, ch)
    else readLoop count.toNat (issue drive lba count cmdReadPio ch) []

/-- So many words of the buffer from an offset on. -/
def writeWords (buf : View) : Nat → Nat → Channel → Channel
  | 0, _, ch => ch
  | n+1, o, ch => writeWords buf n (o + 2) (ch.outw (buf.load16 o))

def writeLoop (buf : View) : Nat → Nat → Channel → Bool × Channel
  | 0, _, ch => (true, ch)
  | count+1, s, ch =>
    let (ready, ch) := ataWaitNotBusy ch
    if !ready then (false, ch)
    else
      let (ready, ch) := ataPollDrq ch
      if !ready then (false, ch)
      else
        let ch := writeWords buf wordsPerSector (512 * s) ch
        let ch := ch.outb .command cmdFlush
        let (ready, ch) := ataWaitNotBusy ch
        if !ready then (false, ch) else writeLoop buf count (s + 1) ch

/-- `ata_write_sectors`; false is its result -1. -/
def ataWriteSectors (drivePresent : Nat → Bool) (drive lba : Nat) (count : UInt8) (buf : View) (ch : Channel) :
    Bool × Channel :=
  if !drivePresent drive then (false, ch)
  else
    let (ready, ch) := ataWaitNotBusy ch
    if !ready then (false, ch)
    else writeLoop buf count.toNat 0 (issue drive lba count cmdWritePio ch)

/-! ### One request -/

/-- No wait is longer than the driver's patience. -/
structure Prompt (ch : Channel) : Prop where
  busy : ch.busy < busyTimeout
  waits : ∀ n, ch.waits n < busyTimeout

def Channel.ready (ch : Channel) : Channel := { ch with busy := 0 }

variable {ch ch' ch'' : Channel} {drive lba left : Nat} {count cmd : UInt8} {buf : View}

namespace Prompt

theorem ready (h : Prompt ch) : Prompt ch.ready := ⟨Nat.zero_lt_succ _, h.waits⟩

theorem wait (h : Prompt ch) (transfer : Transfer) : Prompt (ch.wait transfer) :=
  ⟨h.waits 0, fun n => h.waits (n + 1)⟩

end Prompt

/-- Time passes, and the drives keep their sectors. -/
structure Channel.Kept (ch ch' : Channel) : Prop where
  prompt : Prompt ch'
  attached : ch'.attached = ch.attached
  sectors : ch'.sectors = ch.sectors

theorem Channel.Kept.trans (h : ch.Kept ch') (h' : ch'.Kept ch'') : ch.Kept ch'' :=
  ⟨h'.prompt, h'.attached.trans h.attached, h'.sectors.trans h.sectors⟩

theorem kept_ready (h : Prompt ch) : ch.Kept ch.ready := ⟨h.ready, rfl, rfl⟩

theorem kept_inbStatus (h : Prompt ch) : ch.Kept ch.inbStatus.2 :=
  ⟨⟨Nat.lt_of_le_of_lt (Nat.sub_le ..) h.busy, h.waits⟩, rfl, rfl⟩

theorem kept_outb (h : Prompt ch) (reg : Reg) (v : UInt8) : ch.Kept (ch.outb reg v) := by
  unfold Channel.outb
  split
  · exact ⟨h, rfl, rfl⟩
  · cases reg with
    | hddevsel | seccount | lbaLo | lbaMid | lbaHi => exact ⟨⟨h.busy, h.waits⟩, rfl, rfl⟩
    | command =>
      dsimp only [Channel.command]
      split_ifs
      · exact ⟨h, rfl, rfl⟩
      · exact ⟨h.wait _, rfl, rfl⟩
      · exact ⟨h.wait _, rfl, rfl⟩
      · exact ⟨h.wait _, rfl, rfl⟩
      · exact ⟨h, rfl, rfl⟩

theorem kept_issue (h : Prompt ch) (drive lba : Nat) (count cmd : UInt8) :
    ch.Kept (issue drive lba count cmd ch) := by
  have h₁ := kept_outb h .hddevsel ((if drive ≠ 0 then lbaSlave else lbaMaster) ||| .ofNat (lba / 2^24 % 2^4))
  have h₂ := h₁.trans (kept_outb h₁.prompt .seccount count)
  have h₃ := h₂.trans (kept_outb h₂.prompt .lbaLo (.ofNat lba))
  have h₄ := h₃.trans (kept_outb h₃.prompt .lbaMid (.ofNat (lba / 2^8)))
  have h₅ := h₄.trans (kept_outb h₄.prompt .lbaHi (.ofNat (lba / 2^16)))
  exact h₅.trans (kept_outb h₅.prompt .command cmd)

theorem status_ne (ch : Channel) : ch.status ≠ 0xFF := by
  unfold Channel.status
  split_ifs
  · decide
  · decide
  · cases ch.transfer with
    | none | read | write =>
      dsimp only
      decide

theorem status_ready (hb : ch.busy = 0) :
    ch.status &&& srBsy = 0 ∧ ch.status &&& srErr = 0 ∧
      (ch.status &&& srDrq ≠ 0 ↔ ch.attached ch.selected = true ∧ ch.transfer ≠ .none) := by
  unfold Channel.status
  rw [hb, if_neg (Nat.lt_irrefl 0)]
  cases ch.attached ch.selected with
  | false =>
    rw [if_pos Bool.not_false]
    exact ⟨by decide, by decide, iff_of_false (by decide) fun h => Bool.false_ne_true h.1⟩
  | true =>
    rw [if_neg (by decide : ¬ (!true) = true)]
    cases ch.transfer with
    | none => exact ⟨by decide, by decide, iff_of_false (by decide) fun h => h.2 rfl⟩
    | read | write =>
      dsimp only
      exact ⟨by decide, by decide, iff_of_true (by decide) ⟨rfl, Transfer.noConfusion⟩⟩

/-- The busy drive is waited for. -/
private theorem waitNotBusy_eq (timeout : Nat) (h : ch.busy < timeout) :
    waitNotBusy timeout ch = (true, ch.ready) := by
  induction timeout generalizing ch with
  | zero => omega
  | succ timeout ih =>
    rw [waitNotBusy, Channel.inbStatus]
    dsimp only
    rw [if_neg (status_ne ch)]
    obtain hz | hpos := Nat.eq_zero_or_pos ch.busy
    · obtain ⟨hbsy, -⟩ := status_ready hz
      rw [if_pos hbsy, hz]
      rfl
    · have hstatus : ch.status = srBsy := if_pos hpos
      rw [hstatus, if_neg (by decide)]
      exact ih (by dsimp only; omega)

theorem ataWaitNotBusy_eq (h : Prompt ch) : ataWaitNotBusy ch = (true, ch.ready) := waitNotBusy_eq _ h.busy

theorem inbStatus_ready (hb : ch.busy = 0) : ch.inbStatus = (ch.status, ch) := by
  cases ch
  subst hb
  rfl

theorem ataPollDrq_eq (hb : ch.busy = 0) (hatt : ch.attached ch.selected = true) (ht : ch.transfer ≠ .none) :
    ataPollDrq ch = (true, ch) := by
  obtain ⟨-, herr, hdrq⟩ := status_ready hb
  unfold ataPollDrq drqTimeout
  rw [pollDrq, inbStatus_ready hb]
  dsimp only
  rw [if_neg (not_not.mpr herr), if_pos (hdrq.mpr ⟨hatt, ht⟩)]

/-- The registers for a request. -/
def Channel.addressed (ch : Channel) (drive lba : Nat) (count : UInt8) : Channel :=
  { ch with
    hddevsel := (if drive ≠ 0 then lbaSlave else lbaMaster) ||| .ofNat (lba / 2^24 % 2^4)
    seccount := count
    lbaLo := .ofNat lba
    lbaMid := .ofNat (lba / 2^8)
    lbaHi := .ofNat (lba / 2^16) }

theorem issue_eq (hb : ch.busy = 0) : issue drive lba count cmd ch =
    (ch.addressed drive lba count).command cmd := by
  have hidle : ¬ 0 < ch.busy := by omega
  simp only [issue, Channel.outb, hidle, if_false, Channel.addressed]

/-- The upper four bits choose the drive, the others belong to the address. -/
private theorem nibble_select : ∀ n < 16,
    (((lbaMaster ||| UInt8.ofNat n) &&& 0x0F).toNat = n ∧
      ((lbaMaster ||| UInt8.ofNat n) &&& 0x10 != 0) = false) ∧
      ((lbaSlave ||| UInt8.ofNat n) &&& 0x0F).toNat = n ∧
      ((lbaSlave ||| UInt8.ofNat n) &&& 0x10 != 0) = true := by
  decide

theorem addressed_spec (ch : Channel) (drive lba : Nat) (count : UInt8) :
    (ch.addressed drive lba count).address = lba % 2^28 ∧
      (ch.addressed drive lba count).selected = decide (drive ≠ 0) := by
  obtain ⟨⟨hmaster, hfirst⟩, hslave, hsecond⟩ := nibble_select (lba / 2^24 % 2^4) (Nat.mod_lt _ (by decide))
  unfold Channel.address Channel.selected Channel.addressed
  simp only [UInt8.toNat_ofNat']
  by_cases hd : drive ≠ 0
  · rw [if_pos hd, hslave, hsecond, decide_eq_true hd]
    refine ⟨?_, rfl⟩
    omega
  · rw [if_neg hd, hmaster, hfirst, decide_eq_false hd]
    refine ⟨?_, rfl⟩
    omega

theorem attached_addressed (ch : Channel) (drive lba : Nat) (count : UInt8) :
    (ch.addressed drive lba count).attached (ch.addressed drive lba count).selected =
      ch.attached (decide (drive ≠ 0)) := by
  rw [(addressed_spec ch drive lba count).2]
  rfl

/-! ### Sectors -/

theorem issue_read (hb : ch.busy = 0) (hatt : ch.attached (decide (drive ≠ 0)) = true) (hcount : count ≠ 0)
    (hlba : lba < 2^28) :
    issue drive lba count cmdReadPio ch = (ch.addressed drive lba count).wait (.read lba count.toNat 0) := by
  have hthere := (attached_addressed ch drive lba count).trans hatt
  rw [issue_eq hb, Channel.command, if_neg (by rw [hthere]; decide), if_pos rfl,
    (addressed_spec ch drive lba count).1, Nat.mod_eq_of_lt hlba, Channel.count]
  exact congrArg _ (congrArg (Transfer.read lba · 0) (if_neg hcount))

theorem issue_write (hb : ch.busy = 0) (hatt : ch.attached (decide (drive ≠ 0)) = true) (hcount : count ≠ 0)
    (hlba : lba < 2^28) :
    issue drive lba count cmdWritePio ch = (ch.addressed drive lba count).wait (.write lba count.toNat []) := by
  have hthere := (attached_addressed ch drive lba count).trans hatt
  rw [issue_eq hb, Channel.command, if_neg (by rw [hthere]; decide), if_neg (by decide), if_pos rfl,
    (addressed_spec ch drive lba count).1, Nat.mod_eq_of_lt hlba, Channel.count]
  exact congrArg _ (congrArg (Transfer.write lba · []) (if_neg hcount))

/-- Behind a sector that was read. -/
def Channel.afterRead (ch : Channel) (lba left : Nat) : Channel :=
  if left = 1 then { ch with transfer := .none } else ch.wait (.read (lba + 1) (left - 1) 0)

theorem kept_afterRead (h : Prompt ch) (lba left : Nat) : ch.Kept (ch.afterRead lba left) := by
  unfold Channel.afterRead
  split
  · exact ⟨⟨h.busy, h.waits⟩, rfl, rfl⟩
  · exact ⟨h.wait _, rfl, rfl⟩

theorem readWords_eq (n k : Nat) (acc : List UInt8) (hb : ch.busy = 0) (ht : ch.transfer = .read lba left k)
    (hk : k + n = 256) (hn : 0 < n) :
    readWords n ch acc = (acc ++ (ch.sectors ch.selected lba).bytes (2 * k) (2 * n),
      ch.afterRead lba left) := by
  induction n generalizing ch k acc with
  | zero => omega
  | succ n ih =>
    have hidle : ¬ 0 < ch.busy := by omega
    have hsplit : (ch.sectors ch.selected lba).bytes (2 * k) (2 * (n + 1)) =
        bytes16 ((ch.sectors ch.selected lba).load16 (2 * k)) ++ (ch.sectors ch.selected lba).bytes
          (2 * (k + 1)) (2 * n) := by
      rw [bytes16_of_load16, Nat.mul_succ 2 n, Nat.add_comm (2 * n), View.bytes_add, Nat.mul_succ 2 k]
    rw [readWords, Channel.inw, ht]
    dsimp only
    rw [if_neg hidle]
    dsimp only
    obtain rfl | hpos := Nat.eq_zero_or_pos n
    · have hlast : ¬ k + 1 < 256 := by omega
      rw [if_neg hlast, readWords, hsplit, Nat.mul_zero, View.bytes_zero, List.append_nil]
      rfl
    · have hmore : k + 1 < 256 := by omega
      have hrest := @ih { ch with transfer := .read lba left (k + 1) } (k + 1)
        (acc ++ bytes16 ((ch.sectors ch.selected lba).load16 (2 * k))) hb rfl (by omega) hpos
      rw [if_pos hmore, hrest, hsplit, List.append_assoc]
      rfl

/-- So many sectors are read, whatever time the drive takes for each. -/
private theorem readLoop_eq (n : Nat) (acc : List UInt8) (h : Prompt ch) (hatt : ch.attached ch.selected = true)
    (ht : ch.transfer = .read lba n 0) (hn : 0 < n) :
    ∃ ch', readLoop n ch acc = (some (acc ++ (List.range n).flatMap fun i =>
      (ch.sectors ch.selected (lba + i)).bytes 0 512), ch') ∧ ch.Kept ch' := by
  induction n generalizing ch lba acc with
  | zero => omega
  | succ n ih =>
    have hready : ch.ready.transfer = .read lba (n + 1) 0 := ht
    have hdata : ch.ready.transfer ≠ .none := by
      rw [hready]
      exact Transfer.noConfusion
    have hthere : ch.ready.attached ch.ready.selected = true := hatt
    have hstep : readLoop (n + 1) ch acc =
        readLoop n (ch.ready.afterRead lba (n + 1)) (acc ++ (ch.sectors ch.selected lba).bytes 0 512) := by
      rw [readLoop, ataWaitNotBusy_eq h]
      dsimp only
      rw [ataPollDrq_eq rfl hthere hdata]
      dsimp only
      rw [readWords_eq wordsPerSector 0 acc rfl hready rfl (by decide)]
      rfl
    have hfirst := (kept_ready h).trans (kept_afterRead h.ready lba (n + 1))
    rw [hstep, List.range_succ_eq_map, List.flatMap_cons, List.flatMap_map, ← List.append_assoc]
    obtain rfl | hpos := Nat.eq_zero_or_pos n
    · rw [List.range_zero, List.flatMap_nil, List.append_nil]
      exact ⟨_, rfl, hfirst⟩
    · have hmore : ch.ready.afterRead lba (n + 1) = ch.ready.wait (.read (lba + 1) n 0) :=
        if_neg (by omega)
      rw [hmore] at hfirst ⊢
      obtain ⟨ch', hrest, hkept⟩ :=
        ih (acc ++ (ch.sectors ch.selected lba).bytes 0 512) hfirst.prompt hatt rfl hpos
      refine ⟨ch', ?_, hfirst.trans hkept⟩
      rw [hrest]
      simp only [Nat.add_assoc, Nat.add_comm 1]
      rfl

/-- A request for sectors that the drive's 28 bits can name. -/
theorem ataReadSectors_eq {drivePresent : Nat → Bool} (count : UInt8)
    (hdrive : drivePresent drive = true) (h : Prompt ch)
    (hatt : ch.attached (decide (drive ≠ 0)) = true) (hcount : count ≠ 0) (hlba : lba < 2^28) :
    ∃ ch', ataReadSectors drivePresent drive lba count ch =
      (some ((List.range count.toNat).flatMap fun i =>
        (ch.sectors (decide (drive ≠ 0)) (lba + i)).bytes 0 512), ch') ∧
        ch.Kept ch' := by
  have hpos : 0 < count.toNat := Nat.pos_of_ne_zero fun hz => hcount (UInt8.toNat_inj.mp hz)
  obtain ⟨-, hselected⟩ := addressed_spec ch.ready drive lba count
  have hthere := (attached_addressed ch.ready drive lba count).trans hatt
  have hissued : issue drive lba count cmdReadPio ch.ready =
      (ch.ready.addressed drive lba count).wait (.read lba count.toNat 0) := issue_read rfl hatt hcount hlba
  have hgiven := (kept_ready h).trans (kept_issue h.ready drive lba count cmdReadPio)
  obtain ⟨ch', hrun, hkept⟩ :=
    readLoop_eq count.toNat [] hgiven.prompt (by rw [hissued]; exact hthere) (by rw [hissued]; rfl) hpos
  refine ⟨ch', ?_, hgiven.trans hkept⟩
  rw [ataReadSectors, if_neg (by rw [hdrive]; decide), ataWaitNotBusy_eq h]
  dsimp only
  rw [if_neg (by decide), hrun, hissued, List.nil_append, ← hselected]
  rfl

/-- Behind a sector that was written. -/
def Channel.afterWrite (ch : Channel) (lba left : Nat) (bytes : List UInt8) : Channel :=
  (ch.store lba (.ofBytes bytes)).wait (if left = 1 then .none else .write (lba + 1) (left - 1) [])

theorem Prompt.afterWrite (h : Prompt ch) (lba left : Nat) (bytes : List UInt8) :
    Prompt (ch.afterWrite lba left bytes) := ⟨h.waits 0, fun n => h.waits (n + 1)⟩

private theorem writeWords_eq (n o : Nat) (words : List Nat) (hb : ch.busy = 0)
    (ht : ch.transfer = .write lba left words) (hk : words.length + n = 256) (hn : 0 < n) :
    writeWords buf n o ch = ch.afterWrite lba left (words.flatMap bytes16 ++ buf.bytes o (2 * n)) := by
  induction n generalizing ch o words with
  | zero => omega
  | succ n ih =>
    have hidle : ¬ 0 < ch.busy := by omega
    have hsplit : buf.bytes o (2 * (n + 1)) = bytes16 (buf.load16 o) ++ buf.bytes (o + 2) (2 * n) := by
      rw [bytes16_of_load16, Nat.mul_succ 2 n, Nat.add_comm (2 * n), View.bytes_add]
    rw [writeWords, Channel.outw, ht]
    dsimp only
    rw [if_neg hidle]
    obtain rfl | hpos := Nat.eq_zero_or_pos n
    · have hlast : ¬ words.length + 1 < 256 := by omega
      rw [if_neg hlast, writeWords, hsplit, Nat.mul_zero, View.bytes_zero, List.append_nil, List.flatMap_append,
        List.flatMap_cons, List.flatMap_nil, List.append_nil]
      rfl
    · have hmore : words.length + 1 < 256 := by omega
      have hrest := @ih { ch with transfer := .write lba left (words ++ [buf.load16 o]) } (o + 2)
        (words ++ [buf.load16 o]) hb rfl (by rw [List.length_append, List.length_singleton]; omega) hpos
      rw [if_pos hmore, hrest, hsplit, List.flatMap_append, List.flatMap_cons, List.flatMap_nil,
        List.append_nil, List.append_assoc]
      rfl

/-- A request to write one sector. The flush that follows it may find the drive busy. -/
theorem ataWriteSectors_eq {drivePresent : Nat → Bool} (buf : View) (hdrive : drivePresent drive = true)
    (h : Prompt ch)
    (hatt : ch.attached (decide (drive ≠ 0)) = true) (hlba : lba < 2^28) :
    ∃ ch', ataWriteSectors drivePresent drive lba 1 buf ch = (true, ch') ∧ Prompt ch' ∧
    ch'.attached = ch.attached ∧
      ch'.sectors = Function.update ch.sectors (decide (drive ≠ 0))
        (Function.update (ch.sectors (decide (drive ≠ 0))) lba (.ofBytes (buf.bytes 0 512))) := by
  obtain ⟨-, hselected⟩ := addressed_spec ch.ready drive lba 1
  have hthere := (attached_addressed ch.ready drive lba 1).trans hatt
  have hissued : issue drive lba 1 cmdWritePio ch.ready =
    (ch.ready.addressed drive lba 1).wait (.write lba 1 []) :=
    issue_write rfl hatt (by decide) hlba
  have hp := (kept_issue h.ready drive lba 1 cmdWritePio).prompt
  have htransfer : (issue drive lba 1 cmdWritePio ch.ready).ready.transfer = .write lba 1 [] := by
    rw [hissued]
    rfl
  -- the sector is stored, and the drive may take its time
  have hwords : writeWords buf wordsPerSector 0 (issue drive lba 1 cmdWritePio ch.ready).ready =
      (issue drive lba 1 cmdWritePio ch.ready).ready.afterWrite lba 1 (buf.bytes 0 512) := by
    rw [writeWords_eq wordsPerSector 0 [] rfl htransfer rfl (by decide), List.flatMap_nil, List.nil_append]
    rfl
  have hpoll : ataPollDrq (issue drive lba 1 cmdWritePio ch.ready).ready =
      (true, (issue drive lba 1 cmdWritePio ch.ready).ready) := by
    refine ataPollDrq_eq rfl ?_ ?_
    · rw [hissued]
      exact hthere
    · rw [htransfer]
      exact Transfer.noConfusion
  have hflushed := kept_outb (hp.ready.afterWrite lba 1 (buf.bytes 0 512)) .command cmdFlush
  refine ⟨_, ?_, hflushed.prompt.ready, ?_, ?_⟩
  · rw [ataWriteSectors, if_neg (by rw [hdrive]; decide), ataWaitNotBusy_eq h]
    dsimp only
    rw [if_neg (by decide)]
    change writeLoop buf (0 + 1) 0 _ = _
    rw [writeLoop, ataWaitNotBusy_eq hp]
    dsimp only
    rw [if_neg (by decide), hpoll]
    dsimp only
    rw [if_neg (by decide), Nat.mul_zero, hwords, ataWaitNotBusy_eq hflushed.prompt]
    rfl
  · change (Channel.outb _ .command cmdFlush).attached = _
    rw [hflushed.attached, hissued]
    rfl
  · change (Channel.outb _ .command cmdFlush).sectors = _
    rw [hflushed.sectors, ← hselected, hissued]
    rfl

/-! ### The drives of the file system -/

/-- A request for one sector, as the file system makes it. -/
inductive Request where
  | read (drive lba : Nat)
  | write (drive lba : Nat) (buf : View)

/-- The drive is there and the address has no more than 28 bits. -/
def Request.Valid (drivePresent : Nat → Bool) : Request → Prop
  | .read drive lba | .write drive lba _ => drivePresent drive = true ∧ lba < 2^28

/-- Requests to the driver; nothing is said of one that fails. -/
def driver (drivePresent : Nat → Bool) : Machine Request (List UInt8) Channel
  | ch, .read drive lba =>
    match ataReadSectors drivePresent drive lba 1 ch with
    | (some buf, ch) => some (buf, ch)
    | (none, _) => none
  | ch, .write drive lba buf =>
    match ataWriteSectors drivePresent drive lba 1 buf ch with
    | (true, ch) => some ([], ch)
    | (false, _) => none

/-- Requests to the drives, the master and the slave. -/
def drives : Machine Request (List UInt8) (Bool → Fs.Fat32.Drive)
  | ds, .read drive lba => ((ds (decide (drive ≠ 0))).read lba).map fun sector => (sector.bytes 0 512, ds)
  | ds, .write drive lba buf =>
    ((ds (decide (drive ≠ 0))).write lba buf).map fun d => ([], Function.update ds (decide (drive ≠ 0)) d)

/-- The drives that the driver knows are there, and hold these sectors. -/
structure Attached (drivePresent : Nat → Bool) (ds : Bool → Fs.Fat32.Drive) (ch : Channel) : Prop where
  prompt : Prompt ch
  present : ∀ drive, drivePresent drive = true → ch.attached (decide (drive ≠ 0)) = true
  sectors : ∀ slave lba, (ch.sectors slave lba).bytes 0 512 = ((ds slave).sectors lba).bytes 0 512

variable {drivePresent : Nat → Bool} {ds ds' : Bool → Fs.Fat32.Drive}

private theorem driver_read (hd : drivePresent drive = true) (hlba : lba < 2^28)
    (h : Attached drivePresent ds ch) :
    ∃ ch', driver drivePresent ch (.read drive lba) =
      some (((ds (decide (drive ≠ 0))).sectors lba).bytes 0 512, ch') ∧ Attached drivePresent ds ch' := by
  obtain ⟨ch', hread, hkept⟩ := ataReadSectors_eq 1 hd h.prompt (h.present drive hd) (by decide) hlba
  refine ⟨ch', ?_, hkept.prompt, by rw [hkept.attached]; exact h.present, fun slave lba => by
    rw [hkept.sectors]
    exact h.sectors slave lba⟩
  have hone : (List.range (1 : UInt8).toNat) = [0] := rfl
  rw [driver, hread, ← h.sectors, hone, List.flatMap_singleton, Nat.add_zero]

private theorem driver_write (hd : drivePresent drive = true) (hlba : lba < 2^28)
    (h : Attached drivePresent ds ch) :
    ∃ ch', driver drivePresent ch (.write drive lba buf) = some ([], ch') ∧
      Attached drivePresent (Function.update ds (decide (drive ≠ 0)) { ds (decide (drive ≠ 0)) with
        sectors := Function.update (ds (decide (drive ≠ 0))).sectors lba buf }) ch' := by
  obtain ⟨ch', hwrite, hp, hkept, hsectors⟩ := ataWriteSectors_eq buf hd h.prompt (h.present drive hd) hlba
  refine ⟨ch', by rw [driver, hwrite], hp, by rw [hkept]; exact h.present, fun slave x => ?_⟩
  rw [hsectors]
  by_cases hslave : slave = decide (drive ≠ 0)
  · rw [hslave, Function.update_self, Function.update_self]
    dsimp only
    by_cases hx : x = lba
    · have hlength : (buf.bytes 0 512).length = 512 := View.bytes_length ..
      rw [hx, Function.update_self, Function.update_self, View.bytes_ofBytes _ hlength.ge,
        List.take_of_length_le hlength.le]
    · rw [Function.update_of_ne hx, Function.update_of_ne hx]
      exact h.sectors _ x
  · rw [Function.update_of_ne hslave, Function.update_of_ne hslave]
    exact h.sectors slave x

/-- Whatever time the drives take, valid requests act on them as on the drives of the
file system that hold the same sectors. -/
theorem driver_refines : Machine.RefinedBy drives (driver drivePresent) (Request.Valid drivePresent)
    (Attached drivePresent) := by
  intro ds ch i o ds' hvalid hatt hspec
  cases i with
  | read drive lba =>
    obtain ⟨hd, hlba⟩ := hvalid
    obtain ⟨sector, hread, heq⟩ := Option.map_eq_some_iff.mp hspec
    obtain ⟨rfl, rfl⟩ := Prod.mk.inj heq
    unfold Fs.Fat32.Drive.read at hread
    split at hread
    · cases hread
    · cases hread
      exact driver_read hd hlba hatt
  | write drive lba buf =>
    obtain ⟨hd, hlba⟩ := hvalid
    obtain ⟨d, hwrite, heq⟩ := Option.map_eq_some_iff.mp hspec
    obtain ⟨rfl, rfl⟩ := Prod.mk.inj heq
    unfold Fs.Fat32.Drive.write at hwrite
    split at hwrite
    · cases hwrite
    · cases hwrite
      exact driver_write hd hlba hatt

/-- No sector fails. -/
def Flawless (ds : Bool → Fs.Fat32.Drive) : Prop :=
  ∀ slave lba, (ds slave).readFails lba = false ∧ (ds slave).writeFails lba = false

private theorem drives_answer (i : Request) (h : Flawless ds) :
    ∃ o ds', drives ds i = some (o, ds') ∧ Flawless ds' := by
  cases i with
  | read drive lba =>
    have hread : (ds (decide (drive ≠ 0))).read lba = some ((ds (decide (drive ≠ 0))).sectors lba) :=
      if_neg (by rw [(h _ lba).1]; decide)
    exact ⟨_, _, by rw [drives, hread, Option.map_some], h⟩
  | write drive lba buf =>
    have hwrite : (ds (decide (drive ≠ 0))).write lba buf = some { ds (decide (drive ≠ 0)) with
        sectors := Function.update (ds (decide (drive ≠ 0))).sectors lba buf } :=
      if_neg (by rw [(h _ lba).2]; decide)
    refine ⟨_, _, by rw [drives, hwrite, Option.map_some], fun slave x => ?_⟩
    by_cases hslave : slave = decide (drive ≠ 0)
    · rw [hslave, Function.update_self]
      exact h _ x
    · rw [Function.update_of_ne hslave]
      exact h slave x

/-- The drives of the channel as the file system sees them. -/
def Channel.drives (ch : Channel) : Bool → Fs.Fat32.Drive :=
  fun slave => ⟨ch.sectors slave, fun _ => false, fun _ => false⟩

theorem attached_drives (h : Prompt ch)
    (hpresent : ∀ drive, drivePresent drive = true → ch.attached (decide (drive ≠ 0)) = true) :
    Attached drivePresent ch.drives ch := ⟨h, hpresent, fun _ _ => by rw [Channel.drives]⟩

/-- All valid requests, one after the other, are answered, and as by drives on which
every transfer succeeds: what was written to a sector last is read from it. -/
theorem requests_act_on_drives {is : List Request} (h : Prompt ch)
    (hpresent : ∀ drive, drivePresent drive = true → ch.attached (decide (drive ≠ 0)) = true)
    (hvalid : ∀ i ∈ is, i.Valid drivePresent) :
    ∃ os ds' ch', drives.run ch.drives is = some (os, ds') ∧ (driver drivePresent).run ch is = some (os, ch') ∧
      Attached drivePresent ds' ch' := by
  have hflawless : Flawless ch.drives := fun _ _ => ⟨rfl, rfl⟩
  obtain ⟨os, ds', hspec, -⟩ := Machine.run_total (fun _ i => drives_answer i) hflawless is
  obtain ⟨ch', himpl, hatt⟩ := driver_refines.run hvalid (attached_drives h hpresent) hspec
  exact ⟨os, ds', ch', hspec, himpl, hatt⟩

/-- Empty drives, of which each command keeps the status busy for a while. -/
def emptyChannel : Channel where
  attached _ := true
  hddevsel := lbaMaster
  seccount := 0
  lbaLo := 0
  lbaMid := 0
  lbaHi := 0
  sectors _ _ := .ofBytes []
  transfer := .none
  busy := 3
  waits n := n % 7

theorem requests_act_on_drives_slave : ∃ os ds' ch',
    drives.run emptyChannel.drives [.write 1 5 (.ofBytes [71, 75]), .read 0 5, .read 1 5] = some (os, ds') ∧
      (driver fun drive => decide (drive < 2)).run emptyChannel
        [.write 1 5 (.ofBytes [71, 75]), .read 0 5, .read 1 5] =
        some (os, ch') ∧ Attached (fun drive => decide (drive < 2)) ds' ch' :=
  requests_act_on_drives
    ⟨by decide, fun n => by unfold emptyChannel busyTimeout; dsimp only; omega⟩
    (fun _ _ => rfl) (by simp [Request.Valid])

end GeckoOS.Drivers.Ata
