import GeckoOS.Shell.FileCommands
import GeckoOS.Gk.EndToEnd

/-! What a line typed at the prompt asks for, and the way from a program's text in a
file to its output. -/
namespace GeckoOS.Shell
open Lib Fs.Fat32 Gk

/-- The functions in the table of commands. -/
inductive Func where
  | help | hello | contributors | clear | version | chars | uptime | meminfo | lspci
  | setkeyswe | setkeyus | setkeyuk
  | sleep5 | reboot | printTicks
  | gk
  | fsmount | ls | cat | fsinfo | touch | rm | cp | mv | mkdir | echo | write | runelf
  | ping
  | processes
  | showrsdt
  deriving DecidableEq

structure Command where
  name : List UInt8
  func : Func
  deriving DecidableEq

def commands : List Command := [
  ⟨ascii "help", .help⟩, ⟨ascii "hello", .hello⟩, ⟨ascii "contributors", .contributors⟩,
  ⟨ascii "clear", .clear⟩, ⟨ascii "version", .version⟩, ⟨ascii "chars", .chars⟩,
  ⟨ascii "uptime", .uptime⟩, ⟨ascii "meminfo", .meminfo⟩, ⟨ascii "lspci", .lspci⟩,
  ⟨ascii "setkeyswe", .setkeyswe⟩, ⟨ascii "setkeyus", .setkeyus⟩, ⟨ascii "setkeyuk", .setkeyuk⟩,
  ⟨ascii "sleep", .sleep5⟩, ⟨ascii "reboot", .reboot⟩, ⟨ascii "ticks", .printTicks⟩,
  ⟨ascii "gk", .gk⟩,
  ⟨ascii "fsmount", .fsmount⟩, ⟨ascii "ls", .ls⟩, ⟨ascii "cat", .cat⟩, ⟨ascii "fsinfo", .fsinfo⟩,
  ⟨ascii "touch", .touch⟩, ⟨ascii "rm", .rm⟩, ⟨ascii "cp", .cp⟩, ⟨ascii "mv", .mv⟩,
  ⟨ascii "mkdir", .mkdir⟩, ⟨ascii "echo", .echo⟩, ⟨ascii "write", .write⟩, ⟨ascii "runelf", .runelf⟩,
  ⟨ascii "ping", .ping⟩,
  ⟨ascii "processes", .processes⟩,
  ⟨ascii "showrsdt", .showrsdt⟩]

/-- `streq`; a string ends where its list does. -/
def streq : List UInt8 → List UInt8 → Bool
  | x :: a, y :: b => if x ≠ y then false else streq a b
  | a, b => a.headD 0 == b.headD 0

/-- `starts_with`: what follows the prefix. -/
def startsWith : List UInt8 → List UInt8 → Option (List UInt8)
  | str, [] => some str
  | [], _ :: _ => none
  | c :: str, p :: rest => if c ≠ p then none else startsWith str rest

/-- What `run_command` does with a line: a call or a message. -/
inductive Action where
  | runFile (filename : List UInt8)
  | call (func : Func)
  | message (text : String)
  deriving DecidableEq

/-- The part of `run_command` behind the test for a file name. -/
def runTable (cmdInput : List UInt8) : Action :=
  match commands.find? fun command => streq cmdInput command.name with
  | some command => .call command.func
  | none =>
    if cmdInput.length ≠ 0 then .message "\nUnknown command. Type 'help' for available commands\n"
    else .message "\n"

def runCommand (cmdInput : List UInt8) : Action :=
  match startsWith cmdInput (ascii "gk ") with
  | none => runTable cmdInput
  | some afterGk =>
    let filename := afterGk.dropWhile (· == ' '.toUInt8)
    if filename ≠ [] then .runFile filename else runTable cmdInput

/-- `GK_MAX_SRC` -/
def gkMaxSrc : Nat := 8192

/-- The loop that fills `src_buf`; `none` is a loop that does not end. -/
def readSource (vol : Volume) (d : Drive) (f : File) : Nat → Nat → List UInt8 → Option (List UInt8)
  | 0, _, _ => none
  | fuel+1, offset, acc =>
    if acc.length < gkMaxSrc - 1 then
      match vol.fileRead d f offset 128 with
      | none => some acc
      | some [] => some acc
      | some chunk =>
        readSource vol d f fuel (offset + chunk.length) (acc ++ chunk.take (gkMaxSrc - 1 - acc.length))
    else some acc

/-- `cmd_gk_run_file` on a mounted volume: the report that there is no such file, or
the run. The interpreter reads the buffer up to its first zero byte. -/
def cmdGkRunFile (fuel : Nat) (vol : Volume) (d : Drive) (gkState : GkState) (filename : List UInt8) :
    Option (Except Report (EStateM.Result Stop Run Bool)) := do
  let entries ← vol.getRootEntries d
  match Volume.findListed filename entries with
  | none => return .error ⟨true, "\nFile not found: " ++ printed filename ++ "\n"⟩
  | some f =>
    let srcBuf ← readSource vol d f gkMaxSrc 0 []
    let shown := { gkState with output := gkState.output ++ ascii "\n" }
    return .ok (gkRun fuel (srcBuf.takeWhile (· != 0)) (gkInit shown).start)

variable {vol : Volume} {d : Drive} {root : List Nat} {c : Catalogue} {name base ext content : List UInt8}
  {m : GkState} {sts : List Stmt}

/-! ### The line -/

theorem startsWith_append (p rest : List UInt8) : startsWith (p ++ rest) p = some rest := by
  induction p with
  | nil => rw [List.nil_append, startsWith]
  | cons b p ih => rw [List.cons_append, startsWith, if_neg (not_not.mpr rfl), ih]

/-- Behind gk and at least one space stands the name of a file. -/
theorem runCommand_gk (blanks : Nat) (hne : name ≠ []) (hfirst : name.head? ≠ some ' '.toUInt8) :
    runCommand (ascii "gk " ++ (List.replicate blanks ' '.toUInt8 ++ name)) = .runFile name := by
  have hskip : (List.replicate blanks ' '.toUInt8 ++ name).dropWhile (· == ' '.toUInt8) = name := by
    induction blanks with
    | zero =>
      obtain ⟨b, rest, rfl⟩ := List.exists_cons_of_ne_nil hne
      have hb : (b == ' '.toUInt8) = false := beq_eq_false_iff_ne.mpr fun h => hfirst (congrArg some h)
      rw [List.replicate_zero, List.nil_append, List.dropWhile_cons, hb, if_neg Bool.false_ne_true]
    | succ n ih =>
      rw [List.replicate_succ, List.cons_append, List.dropWhile_cons, if_pos (beq_self_eq_true _), ih]
  unfold runCommand
  rw [startsWith_append]
  dsimp only
  rw [hskip, if_pos hne]

/-- A name is not empty and does not begin with a space. -/
private theorem is83_head (h : Is83 name base ext) : name ≠ [] ∧ name.head? ≠ some ' '.toUInt8 := by
  obtain ⟨b, rest, hbase⟩ := List.exists_cons_of_length_pos h.base_pos
  have hb : NameChar b := h.baseChar b (hbase ▸ List.mem_cons_self)
  obtain ⟨tail, htail⟩ : ∃ tail, name = b :: tail := by
    rw [h.eq, hbase]
    split
    · exact ⟨rest, rfl⟩
    · exact ⟨rest ++ 46 :: ext, rfl⟩
  rw [htail]
  refine ⟨List.cons_ne_nil _ _, fun hspace => ?_⟩
  rw [Option.some.inj hspace] at hb
  exact absurd hb.1 (by decide)

/-! ### The file -/

/-- The loop takes the file up to the room in the buffer. -/
private theorem readSource_eq {f : File}
    (hread : ∀ offset len, len < 2^31 → vol.fileRead d f offset len = some ((content.drop offset).take len))
    (fuel offset : Nat) (hfuel : gkMaxSrc - 1 ≤ offset + fuel) (hoff : offset ≤ content.length) :
    readSource vol d f (fuel + 1) offset ((content.take offset).take (gkMaxSrc - 1)) =
      some (content.take (gkMaxSrc - 1)) := by
  induction fuel generalizing offset with
  | zero =>
    rw [Nat.add_zero] at hfuel
    rw [readSource, if_neg, List.take_take, Nat.min_eq_left hfuel]
    rw [List.length_take, List.length_take]
    omega
  | succ fuel ih =>
    rw [readSource]
    split
    · next hroom =>
      rw [hread _ _ (by decide)]
      obtain hend | hlt := Nat.eq_or_lt_of_le hoff
      · rw [hend, List.drop_length, List.take_length]
        rfl
      · have hlen : ((content.drop offset).take 128).length = min 128 (content.length - offset) := by
          rw [List.length_take, List.length_drop]
        have hne : (content.drop offset).take 128 ≠ [] := by
          intro hnil
          rw [hnil, List.length_nil] at hlen
          omega
        have hnext : (content.take offset).take (gkMaxSrc - 1) ++
            ((content.drop offset).take 128).take
              (gkMaxSrc - 1 - ((content.take offset).take (gkMaxSrc - 1)).length) =
              (content.take (offset + ((content.drop offset).take 128).length)).take (gkMaxSrc - 1) := by
          have hroom' := hroom
          rw [List.length_take, List.length_take] at hroom'
          have hchunk : (content.drop offset).take ((content.drop offset).take 128).length =
              (content.drop offset).take 128 := by
            rw [List.length_take, ← List.take_take, List.take_length]
          rw [List.take_add, hchunk, List.take_append, List.length_take, List.length_take]
          congr 2
          omega
        split
        · next h => cases h
        · next h => exact absurd (Option.some.inj h) hne
        · next h =>
          rw [← Option.some.inj h, hnext]
          exact ih _ (by omega) (by omega)
    · next hfull =>
      rw [List.take_take, Nat.min_eq_left]
      rw [List.length_take, List.length_take] at hfull
      omega

/-! ### The text -/

private theorem symbolText_zero (t : TokenType) : 0 ∉ symbolText t := by
  cases t <;> decide +kernel

/-- No token is written with a zero byte. -/
theorem spelt_zero {sh : Shape} (h : sh.Spelt) : 0 ∉ sh.text := by
  cases sh with
  | int v =>
    intro hmem
    exact absurd ((digitText_digits v.toNat).1 0 hmem) (by decide)
  | str s =>
    obtain ⟨hzero, -⟩ := h
    have hescape : ∀ b ∈ s, (0 : UInt8) ∉ escape 34 b := by
      intro b hb
      have hne : (0 : UInt8) ≠ b := fun h => hzero (h ▸ hb)
      unfold escape
      split
      · decide
      · split
        · decide
        · split <;> simp [hne, backslash]
    intro hmem
    simp only [Shape.text, List.mem_append, List.mem_cons, List.mem_flatMap, List.not_mem_nil, or_false] at hmem
    rcases hmem with (h | ⟨b, hb, hmem⟩) | h
    · exact absurd h (by decide)
    · exact hescape b hb hmem
    · exact absurd h (by decide)
  | name s =>
    obtain ⟨hfirst, hrest, -, -⟩ := h
    cases s with
    | nil => exact List.not_mem_nil
    | cons b s =>
      intro hmem
      rcases List.mem_cons.mp hmem with rfl | hmem
      · rw [List.headD_cons] at hfirst
        exact absurd hfirst (by decide)
      · exact absurd (hrest 0 hmem) (by decide)
  | symbol t => exact symbolText_zero t

/-- Nor is a program. -/
theorem programText_zero (h : Writable sts) : 0 ∉ programText sts := by
  have htokens : ∀ shapes : List Shape, (∀ sh ∈ shapes, sh.Spelt) → 0 ∉ tokensText shapes := by
    intro shapes hspelt hmem
    obtain ⟨sh, hsh, hmem⟩ := List.mem_flatMap.mp hmem
    rcases List.mem_append.mp hmem with hmem | hmem
    · exact spelt_zero (hspelt sh hsh) hmem
    · exact absurd hmem (by decide)
  intro hmem
  obtain ⟨l, hl, hmem⟩ := List.mem_flatMap.mp hmem
  rw [lineText, List.mem_append, List.mem_append] at hmem
  rcases hmem with hmem | hmem | hmem
  · exact absurd (List.eq_of_mem_replicate hmem) (by decide)
  · exact htokens l.2 (h.spelt l hl) hmem
  · exact absurd hmem (by decide)

/-! ### From the file to the output -/

/-- A file under this name is run as far as the buffer holds it, up to its first zero byte. -/
theorem cmdGkRunFile_eq (hg : vol.Geometry) (hc : vol.Carries root c d) (hname : Is83 name base ext)
    (hfile : c.fileNamed name = some content) (fuel : Nat) (m : GkState) :
    cmdGkRunFile fuel vol d m name = some (.ok (gkRun fuel
      ((content.take (gkMaxSrc - 1)).takeWhile (· != 0))
      (gkInit { m with output := m.output ++ ascii "\n" }).start)) := by
  obtain ⟨entries, he, hlisted⟩ := hc.findListed hg hname
  rw [hfile] at hlisted
  obtain ⟨f, hfound, -, hread⟩ := hlisted
  have hsource := readSource_eq hread (gkMaxSrc - 1) 0 (Nat.le_add_left _ _) (Nat.zero_le _)
  rw [List.take_zero, List.take_nil] at hsource
  unfold cmdGkRunFile
  rw [he, Option.bind_eq_bind, Option.bind_some, hfound]
  dsimp only
  rw [show gkMaxSrc = gkMaxSrc - 1 + 1 from rfl, hsource]
  rfl

/-- Whatever calls brought the text of a program into a file: behind gk and the name
of the file, the line at the prompt runs it, and what is seen is what the program means. -/
theorem typed_program_means {img : Image} {own : Slot → List Nat} (hg : vol.Geometry) (h : vol.Shows d img)
    (hl : vol.Layout img root own) (hd : vol.Distinct img root) (hs : vol.Sized img root own)
    (hc : (vol.catalogue img root own).Regular) {calls : List Call} {answers : List Int}
    (hcalls : ∀ call ∈ calls, call.Plain)
    (hrun : Machine.run (Catalogue.step vol.clustersNeeded) (vol.catalogue img root own) calls =
      some (answers, c))
    (hname : Is83 name base ext) (hfile : c.fileNamed name = some (programText sts)) (hw : Writable sts)
    (hj : allJumpsFit false sts = true) (hlen : (programText sts).length < gkMaxSrc) :
    ∃ d', Machine.run vol.exec d calls = some (answers, d') ∧ ∀ (blanks fuel : Nat) (m : GkState), ∃ filename r,
      runCommand (ascii "gk " ++ (List.replicate blanks ' '.toUInt8 ++ name)) = .runFile filename ∧
      cmdGkRunFile fuel vol d' m filename = some (.ok r) ∧
      behaviour r = expected (denoteProgram fuel sts { m.world with output := m.output ++ ascii "\n" }) := by
  have hcarries : vol.Carries root (vol.catalogue img root own) d := ⟨hc, img, own, h, hl, hd, hs, rfl⟩
  obtain ⟨d', hrun', hc'⟩ := (exec_refines hg root).run hcalls hcarries hrun
  refine ⟨d', hrun', fun blanks fuel m => ⟨name, _, ?_, cmdGkRunFile_eq hg hc' hname hfile fuel m, ?_⟩⟩
  · exact runCommand_gk blanks (is83_head hname).1 (is83_head hname).2
  · have hall : ((programText sts).take (gkMaxSrc - 1)).takeWhile (· != 0) = programText sts := by
      rw [List.take_of_length_le (by omega), List.takeWhile_eq_self_iff]
      intro b hb
      exact bne_iff_ne.mpr fun hzero => programText_zero hw (hzero ▸ hb)
    rw [hall]
    obtain ⟨s₁, s₂, hl, hp, hopen, -⟩ := hw.reads (begun { m with output := m.output ++ ascii "\n" })
    exact behaviour_of_holds hl hp hopen.close.holds hj fuel

/-- A program is stored as P and run as p. -/
theorem typed_program_means_small :
    ∃ d' filename r, Machine.run smallVolume.exec smallDrive [.create [80] (programText sampleProgram)] =
        some ([0], d') ∧ runCommand (ascii "gk  p") = .runFile filename ∧
      cmdGkRunFile 20 smallVolume d' (freshState []) filename = some (.ok r) ∧
      (behaviour r).output = ascii "\n5\ni 1\n" := by
  have hplain : ∀ call ∈ [Call.create [80] (programText sampleProgram)], call.Plain := by
    intro call hcall
    rw [List.mem_singleton.mp hcall]
    exact ⟨⟨[80], [], by simp, by simp, by simp, by simp [NameChar], by simp, rfl⟩, by decide +kernel⟩
  have hname : Is83 [112] [112] [] := ⟨by simp, by simp, by simp, by simp [NameChar], by simp, rfl⟩
  have hnew : (smallVolume.catalogue (smallVolume.image smallDrive) [2] smallOwn).find
    (encode83Name [80]) = none := by
    decide +kernel
  have hplaces : (smallVolume.catalogue (smallVolume.image smallDrive) [2] smallOwn).places ≠ 0 := by
    decide +kernel
  have hfits : (smallVolume.catalogue (smallVolume.image smallDrive) [2] smallOwn).Fits
    smallVolume.clustersNeeded
      (programText sampleProgram) :=
    .inr (by decide +kernel)
  obtain ⟨c, hstep, hfile⟩ := fileNamed_create hnew hplaces hfits
  have hrun : Machine.run (Catalogue.step smallVolume.clustersNeeded)
      (smallVolume.catalogue (smallVolume.image smallDrive) [2] smallOwn)
      [.create [80] (programText sampleProgram)] = some ([0], c) :=
    Machine.run_cons_eq_some.mpr ⟨0, c, [], hstep, rfl, rfl⟩
  have hraw : encode83Name [112] = encode83Name [80] := by decide +kernel
  have hfile' : c.fileNamed [112] = some (programText sampleProgram) := by
    rw [Catalogue.fileNamed, hraw]
    exact hfile
  obtain ⟨d', he, hall⟩ :=
    typed_program_means small_geometry small_shows small_layout small_names_distinct small_sized
    small_regular hplain hrun hname hfile' sampleProgram_writable (by decide) (by decide +kernel)
  obtain ⟨filename, r, hline, hgk, hmeans⟩ := hall 1 20 (freshState [])
  refine ⟨d', filename, r, he, hline, hgk, ?_⟩
  rw [hmeans]
  decide +kernel

end GeckoOS.Shell
