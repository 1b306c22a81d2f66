import GeckoOS.Fs.CatalogueRuns
import GeckoOS.Fs.Commands

/-! The commands of the shell that work on files, and the shell that one would have
on a catalogue. A session on the drive prints what that shell says. -/
namespace GeckoOS.Shell
open Lib Fs.Fat32

instance : DecidableEq Report := fun r r' =>
  decidable_of_iff (r.red = r'.red ∧ r.text = r'.text) (by
    cases r
    cases r'
    simp)

/-- A command with what is typed at its prompts. -/
inductive Line where
  | cat (fname : List UInt8)
  | touch (fname content : List UInt8)
  | rm (fname confirm : List UInt8)
  | cp (src dst : List UInt8)
  | mv (src dst : List UInt8)
  | mkdir (dname : List UInt8)
  | write (fname content : List UInt8)

section commands
variable (vol : Volume) (d : Drive)

/-- The bytes that `cmd_cat` prints; `none` is a loop that does not end. -/
def catLoop (f : File) : Nat → Nat → List UInt8 → Option (List UInt8)
  | 0, _, _ => none
  | fuel+1, j, acc =>
    match vol.fileRead d f (j * 128) 128 with
    | none => some acc
    | some [] => some acc
    | some bytes => catLoop f fuel (j + 1) (acc ++ bytes)

def cmdCat (fname : List UInt8) : Option (Report × Drive) := do
  let entries ← vol.getRootEntries d
  match Volume.findListed fname entries with
  | none => return (⟨true, "File not found: " ++ printed fname ++ "\n"⟩, d)
  | some f =>
    let bytes ← catLoop vol d f (f.fileSize / 128 + 2) 0 []
    return (⟨false, printed bytes ++ "\n"⟩, d)

def cmdTouch (fname content : List UInt8) : Option (Report × Drive) := do
  let (result, d) ← vol.createFile d fname content
  if result = 0 then return (⟨false, "File created: " ++ printed fname ++ "\n"⟩, d)
  else return (⟨true, "Failed to create file (disk full or root dir full?)\n"⟩, d)

/-- `confirm[0]` is y or Y. -/
def confirmed (confirm : List UInt8) : Bool := confirm.headD 0 == 'y'.toUInt8 || confirm.headD 0 == 'Y'.toUInt8

def cmdRm (fname confirm : List UInt8) : Option (Report × Drive) :=
  if !confirmed confirm then some (⟨false, "Cancelled.\n"⟩, d)
  else do
    let (result, d) ← vol.deleteFile d fname
    if result = 0 then return (⟨false, "Deleted: " ++ printed fname ++ "\n"⟩, d)
    else return (⟨true, "Failed to delete (file not found or FS error).\n"⟩, d)

def cmdMkdir (dname : List UInt8) : Option (Report × Drive) := do
  let (result, d) ← vol.mkdir d dname
  if result = 0 then return (⟨false, "Directory created: " ++ printed dname ++ "\n"⟩, d)
  else return (⟨true, "Failed to create directory.\n"⟩, d)

def cmdWrite (fname content : List UInt8) : Option (Report × Drive) := do
  let (result, d) ← vol.appendFile d fname content
  if result = 0 then return (⟨false, "Appended to: " ++ printed fname ++ "\n"⟩, d)
  else return (⟨true, "Failed (file not found or FS error).\n"⟩, d)

end commands

/-- One command on a mounted volume. -/
def shell (vol : Volume) : Machine Line Report Drive := fun d line =>
  match line with
  | .cat fname => cmdCat vol d fname
  | .touch fname content => cmdTouch vol d fname content
  | .rm fname confirm => cmdRm vol d fname confirm
  | .cp src dst => vol.cmdCp d src dst
  | .mv src dst => vol.cmdMv d src dst
  | .mkdir dname => cmdMkdir vol d dname
  | .write fname content => cmdWrite vol d fname content

/-! ### On a catalogue -/

/-- A call, and a line that says whether it succeeded. -/
def told (need : Nat → Nat) (c : Catalogue) (call : Call) (good bad : String) : Option (Report × Catalogue) :=
  (c.step need call).map fun r => (if r.1 = 0 then ⟨false, good⟩ else ⟨true, bad⟩, r.2)

/-- What a command prints and does to the catalogue. Nothing is said of files with 2^31
bytes or more, and where nothing is said of its calls. -/
def plainShell (need : Nat → Nat) : Machine Line Report Catalogue := fun c line =>
  match line with
  | .cat fname =>
    match c.fileNamed fname with
    | none => some (⟨true, "File not found: " ++ printed fname ++ "\n"⟩, c)
    | some content => if content.length < 2^31 then some (⟨false, printed content ++ "\n"⟩, c) else none
  | .touch fname content =>
    told need c (.create fname content) ("File created: " ++ printed fname ++ "\n")
      "Failed to create file (disk full or root dir full?)\n"
  | .rm fname confirm =>
    if confirmed confirm then
      told need c (.delete fname) ("Deleted: " ++ printed fname ++ "\n")
        "Failed to delete (file not found or FS error).\n"
    else some (⟨false, "Cancelled.\n"⟩, c)
  | .cp src dst =>
    match c.fileNamed src with
    | none => some (⟨true, "Source not found.\n"⟩, c)
    | some content =>
      told need c (.create dst (content.take 4096)) ("Copied to: " ++ printed dst ++ "\n") "Copy failed.\n"
  | .mv src dst =>
    match c.fileNamed src with
    | none => some (⟨true, "Source not found.\n"⟩, c)
    | some content =>
      (c.step need (.create dst (content.take 4096))).bind fun r =>
        if r.1 ≠ 0 then some (⟨true, "Move failed (could not create dst).\n"⟩, r.2)
        else (r.2.step need (.delete src)).map fun r' =>
          (⟨false, "Moved: " ++ printed src ++ " -> " ++ printed dst ++ "\n"⟩, r'.2)
  | .mkdir dname =>
    told need c (.mkdir dname) ("Directory created: " ++ printed dname ++ "\n") "Failed to create directory.\n"
  | .write fname content =>
    told need c (.append fname content) ("Appended to: " ++ printed fname ++ "\n")
      "Failed (file not found or FS error).\n"

/-- The names that a command is given. -/
def Line.names : Line → List (List UInt8)
  | .cat fname | .touch fname _ | .rm fname _ | .write fname _ => [fname]
  | .cp src dst | .mv src dst => [src, dst]
  | .mkdir dname => [dname]

def Line.text : Line → List UInt8
  | .touch _ content | .write _ content => content
  | .cat _ | .rm _ _ | .cp _ _ | .mv _ _ | .mkdir _ => []

/-- Names of at most eight and three characters; what is typed has room in the buffers. -/
structure Line.Plain (line : Line) : Prop where
  names : ∀ name ∈ line.names, ∃ base ext, Is83 name base ext
  text : line.text.length < 255

variable {vol : Volume} {d : Drive} {root : List Nat} {c c' : Catalogue} {call : Call} {line : Line}
  {report : Report} {name base ext fname content src dst : List UInt8}

/-- One call and its report. -/
private theorem told_refines (hg : vol.Geometry) (hc : vol.Carries root c d) (hcall : call.Plain)
    {good bad : String}
    (htold : told vol.clustersNeeded c call good bad = some (report, c')) :
    ∃ d', ((vol.exec d call).bind fun r =>
      if r.1 = 0 then some (⟨false, good⟩, r.2) else some (⟨true, bad⟩, r.2)) =
      some (report, d') ∧ vol.Carries root c' d' := by
  obtain ⟨⟨z, c₁⟩, hstep, heq⟩ := Option.map_eq_some_iff.mp htold
  obtain ⟨rfl, rfl⟩ := Prod.mk.inj heq
  obtain ⟨d', he, hc'⟩ := exec_refines hg root hcall hc hstep
  refine ⟨d', ?_, hc'⟩
  rw [he, Option.bind_some]
  dsimp only
  split <;> rfl

/-- The loop of `cmd_cat` prints the file from the offset on. -/
private theorem catLoop_eq {f : File}
    (hread : ∀ offset len, len < 2^31 → vol.fileRead d f offset len = some ((content.drop offset).take len))
    (fuel j : Nat) (hfuel : content.length ≤ (j + fuel) * 128) :
    catLoop vol d f (fuel + 1) j (content.take (j * 128)) = some content := by
  have hdone : ∀ fuel j, content.length ≤ j * 128 →
      catLoop vol d f (fuel + 1) j (content.take (j * 128)) = some content := by
    intro fuel j hend
    rw [catLoop, hread _ _ (by decide), List.drop_eq_nil_of_le hend, List.take_of_length_le hend]
    rfl
  induction fuel generalizing j with
  | zero => exact hdone 0 j hfuel
  | succ fuel ih =>
    by_cases hend : content.length ≤ j * 128
    · exact hdone _ j hend
    · have hne : (content.drop (j * 128)).take 128 ≠ [] := by
        intro h
        have hlen := congrArg List.length h
        rw [List.length_take, List.length_drop, List.length_nil] at hlen
        omega
      have hnext : content.take (j * 128) ++ (content.drop (j * 128)).take 128 =
        content.take ((j + 1) * 128) := by
        rw [Nat.succ_mul, List.take_add]
      rw [catLoop, hread _ _ (by decide)]
      split
      · next h => cases h
      · next h => exact absurd (Option.some.inj h) hne
      · next h =>
        rw [← Option.some.inj h, hnext]
        exact ih (j + 1) (by omega)

/-- What both copying commands read. -/
private theorem sourceBuf_carries (hg : vol.Geometry) (hc : vol.Carries root c d) (hname : Is83 src base ext) :
    vol.sourceBuf d src = some ((c.fileNamed src).map (List.take 4096)) := by
  obtain ⟨entries, he, hfile⟩ := hc.findListed hg hname
  unfold Volume.sourceBuf
  rw [he, Option.map_some]
  congr 1
  cases hf : c.fileNamed src with
  | none =>
    rw [hf] at hfile
    rw [hfile]
    rfl
  | some content =>
    rw [hf] at hfile
    obtain ⟨f, hlisted, -, hread⟩ := hfile
    rw [hlisted, Option.map_some, Option.map_some]
    congr 1
    exact readUpTo_eq 4096 (fun j => hread (j * 128) 128 (by decide)) 4096 0 (by decide)

private theorem plain_copy (hname : ∃ base ext, Is83 dst base ext) (content : List UInt8) :
    (Call.create dst (content.take 4096)).Plain := by
  refine ⟨hname, ?_⟩
  show (content.take 4096).length < 2^32
  rw [List.length_take]
  omega

/-- The shell refines the plain one. -/
theorem shell_refines (hg : vol.Geometry) (root : List Nat) :
    Machine.RefinedBy (plainShell vol.clustersNeeded) (shell vol) Line.Plain (vol.Carries root) := by
  rintro c d line report c' ⟨hnames, htext⟩ hc hstep
  cases line with
  | cat fname =>
    obtain ⟨base, ext, hname⟩ := hnames fname (by simp [Line.names])
    obtain ⟨entries, he, hfile⟩ := hc.findListed hg hname
    simp only [plainShell] at hstep
    dsimp only [shell]
    unfold cmdCat
    rw [he, Option.bind_eq_bind, Option.bind_some]
    split at hstep
    · next hnone =>
      obtain ⟨rfl, rfl⟩ := Prod.mk.inj (Option.some.inj hstep)
      rw [hnone] at hfile
      rw [hfile]
      exact ⟨d, rfl, hc⟩
    · next content hsome =>
      rw [hsome] at hfile
      obtain ⟨f, hlisted, hsize, hread⟩ := hfile
      split at hstep
      · obtain ⟨rfl, rfl⟩ := Prod.mk.inj (Option.some.inj hstep)
        have hloop := catLoop_eq hread (f.fileSize / 128 + 1) 0 (by omega)
        rw [Nat.zero_mul, List.take_zero] at hloop
        rw [hlisted]
        dsimp only
        rw [hloop]
        exact ⟨d, rfl, hc⟩
      · cases hstep
  | touch fname content =>
    have hcall : (Call.create fname content).Plain :=
      ⟨hnames fname (by simp [Line.names]), lt_trans htext (by decide)⟩
    exact told_refines hg hc hcall hstep
  | rm fname confirm =>
    have hcall : (Call.delete fname).Plain := ⟨hnames fname (by simp [Line.names]), Nat.two_pow_pos 32⟩
    simp only [plainShell] at hstep
    dsimp only [shell]
    unfold cmdRm
    split at hstep
    · next hyes =>
      rw [hyes, if_neg (by decide)]
      exact told_refines hg hc hcall hstep
    · next hno =>
      obtain ⟨rfl, rfl⟩ := Prod.mk.inj (Option.some.inj hstep)
      rw [Bool.eq_false_iff.mpr hno]
      exact ⟨d, rfl, hc⟩
  | cp src dst =>
    obtain ⟨base, ext, hsrc⟩ := hnames src (by simp [Line.names])
    simp only [plainShell] at hstep
    dsimp only [shell]
    unfold Volume.cmdCp
    rw [sourceBuf_carries hg hc hsrc, Option.bind_eq_bind, Option.bind_some]
    split at hstep
    · next hnone =>
      obtain ⟨rfl, rfl⟩ := Prod.mk.inj (Option.some.inj hstep)
      rw [hnone]
      exact ⟨d, rfl, hc⟩
    · next content hsome =>
      rw [hsome]
      exact told_refines hg hc (plain_copy (hnames dst (by simp [Line.names])) content) hstep
  | mv src dst =>
    obtain ⟨base, ext, hsrc⟩ := hnames src (by simp [Line.names])
    simp only [plainShell] at hstep
    dsimp only [shell]
    unfold Volume.cmdMv
    rw [sourceBuf_carries hg hc hsrc, Option.bind_eq_bind, Option.bind_some]
    split at hstep
    · next hnone =>
      obtain ⟨rfl, rfl⟩ := Prod.mk.inj (Option.some.inj hstep)
      rw [hnone]
      exact ⟨d, rfl, hc⟩
    · next content hsome =>
      rw [hsome]
      obtain ⟨⟨z, c₁⟩, hcreate, hrest⟩ := Option.bind_eq_some_iff.mp hstep
      obtain ⟨d₁, he, hc₁⟩ :=
        exec_refines hg root (plain_copy (hnames dst (by simp [Line.names])) content) hc hcreate
      have hrun : vol.createFile d dst (content.take 4096) = some (z, d₁) := he
      dsimp only [Option.map_some] at hrest ⊢
      rw [hrun, Option.bind_eq_bind, Option.bind_some]
      dsimp only
      split at hrest
      · next hz =>
        obtain ⟨rfl, rfl⟩ := Prod.mk.inj (Option.some.inj hrest)
        rw [if_pos hz]
        exact ⟨d₁, rfl, hc₁⟩
      · next hz =>
        obtain ⟨⟨z', c₂⟩, hdelete, heq⟩ := Option.map_eq_some_iff.mp hrest
        obtain ⟨rfl, rfl⟩ := Prod.mk.inj heq
        have hcall : (Call.delete src).Plain := ⟨⟨base, ext, hsrc⟩, Nat.two_pow_pos 32⟩
        obtain ⟨d₂, he₂, hc₂⟩ := exec_refines hg root hcall hc₁ hdelete
        have hrun₂ : vol.deleteFile d₁ src = some (z', d₂) := he₂
        rw [if_neg hz, hrun₂]
        exact ⟨d₂, rfl, hc₂⟩
  | mkdir dname =>
    have hcall : (Call.mkdir dname).Plain := ⟨hnames dname (by simp [Line.names]), Nat.two_pow_pos 32⟩
    exact told_refines hg hc hcall hstep
  | write fname content =>
    have hcall : (Call.append fname content).Plain :=
      ⟨hnames fname (by simp [Line.names]), lt_trans htext (by decide)⟩
    exact told_refines hg hc hcall hstep

/-- A session of file commands on a volume in order prints, command by command, what
the plain shell says on the catalogue, and the drive then offers the catalogue's last state. -/
theorem session_follows_catalogue {img : Image} {own : Slot → List Nat} (hg : vol.Geometry)
    (h : vol.Shows d img)
    (hl : vol.Layout img root own) (hd : vol.Distinct img root) (hs : vol.Sized img root own)
    (hc : (vol.catalogue img root own).Regular) {lines : List Line} {reports : List Report}
    (hlines : ∀ line ∈ lines, line.Plain)
    (hrun : Machine.run (plainShell vol.clustersNeeded) (vol.catalogue img root own) lines =
      some (reports, c)) :
    ∃ d' entries, Machine.run (shell vol) d lines = some (reports, d') ∧ vol.Offers d' c entries := by
  have hcarries : vol.Carries root (vol.catalogue img root own) d := ⟨hc, img, own, h, hl, hd, hs, rfl⟩
  obtain ⟨d', hrun', hc'⟩ := (shell_refines hg root).run hlines hcarries hrun
  obtain ⟨entries, hoffers⟩ := hc'.offers hg
  exact ⟨d', entries, hrun', hoffers⟩

/-- A file is shown, moved, and looked for under its old name. -/
theorem session_follows_catalogue_small :
    ∃ d' c entries, Machine.run (shell smallVolume) smallDrive
        [.cat [97], .mv [65] [66], .cat [65], .rm [66] [121]] =
        some ([⟨false, "hello\n"⟩, ⟨false, "Moved: A -> B\n"⟩, ⟨true, "File not found: A\n"⟩,
          ⟨false, "Deleted: B\n"⟩], d') ∧ smallVolume.Offers d' c entries := by
  have hplain : ∀ line ∈ [Line.cat [97], .mv [65] [66], .cat [65], .rm [66] [121]], line.Plain := by
    have hname : ∀ b ∈ ([97, 65, 66] : List UInt8), Is83 [b] [b] [] := fun b hb =>
      ⟨by simp, by simp, by simp, by revert b; simp [NameChar], by simp, rfl⟩
    simp only [List.mem_cons, List.not_mem_nil, or_false]
    rintro line (rfl | rfl | rfl | rfl) <;> refine ⟨?_, by decide⟩ <;> intro name hmem <;>
      simp only [Line.names, List.mem_cons, List.not_mem_nil, or_false] at hmem
    · exact ⟨_, _, hmem ▸ hname 97 (by simp)⟩
    · rcases hmem with rfl | rfl
      · exact ⟨_, _, hname 65 (by simp)⟩
      · exact ⟨_, _, hname 66 (by simp)⟩
    · exact ⟨_, _, hmem ▸ hname 65 (by simp)⟩
    · exact ⟨_, _, hmem ▸ hname 66 (by simp)⟩
  have hreports : (Machine.run (plainShell smallVolume.clustersNeeded)
      (smallVolume.catalogue (smallVolume.image smallDrive) [2] smallOwn)
      [.cat [97], .mv [65] [66], .cat [65], .rm [66] [121]]).map Prod.fst =
      some [⟨false, "hello\n"⟩, ⟨false, "Moved: A -> B\n"⟩, ⟨true, "File not found: A\n"⟩,
        ⟨false, "Deleted: B\n"⟩] := by
    decide +kernel
  obtain ⟨⟨reports, c⟩, hrun, rfl⟩ := Option.map_eq_some_iff.mp hreports
  obtain ⟨d', entries, he, hoffers⟩ := session_follows_catalogue small_geometry small_shows small_layout
    small_names_distinct small_sized small_regular hplain hrun
  exact ⟨d', c, entries, he, hoffers⟩

end GeckoOS.Shell
