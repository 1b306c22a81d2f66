import GeckoOS.Gk.LanguageMeaning
import GeckoOS.Gk.Refinement
import GeckoOS.Gk.SourceText

/-! From the source text to the output: a run of `gk_run` shows what the language
says of the program that was written. -/
namespace GeckoOS.Gk
open Lib

/-- What is seen of a run: its result or how it stops, the lines it has not read, and its output. -/
structure Behaviour where
  exit : Except Stop Bool
  input : List (List UInt8)
  output : List UInt8

def behaviour : EStateM.Result Stop Run Bool → Behaviour
  | .ok b s => ⟨.ok b, s.input, s.output⟩
  | .error e s => ⟨.error e, s.input, s.output⟩

/-- What should be seen. An error is reported behind the output. -/
def expected : EStateM.Result Halt World Ending → Behaviour
  | .ok _ w => ⟨.ok true, w.input, w.output⟩
  | .error (.error e) w =>
    ⟨.ok false, w.input, w.output ++ (ascii "gk runtime error: " ++ e.text ++ ascii "\n")⟩
  | .error .trap w => ⟨.error .divideError, w.input, w.output⟩
  | .error .outOfFuel w => ⟨.error .outOfFuel, w.input, w.output⟩

/-- Before its first statement a program has no variables and no functions. -/
def GkState.world (m : GkState) : World := ⟨.empty, [], [], m.input, m.output⟩

/-- The meaning of a program. -/
def denoteProgram (fuel : Nat) (sts : List Stmt) (w : World) : EStateM.Result Halt World Ending :=
  (meaning fuel).stmt (.block sts) w

variable {m : GkState} {src : List UInt8} {s₁ s₂ : Run} {root fuel : Nat} {sts : List Stmt}

theorem idle_parsed (hl : gkLex src (begun m) = .ok () s₁) (hp : gkParse s₁ = .ok root s₂) :
    Idle s₂.nodes m.world s₂ := by
  have h := shows_parsed hl hp
  exact {
    nodes_eq := rfl
    vars := h.vars
    depth := h.depth
    funcs := by
      rw [h.funcs]
      exact .nil
    input := h.input
    output := h.output
    error := h.error
    clean := ⟨h.returning, h.breaking, h.continuing⟩ }

/-- What is seen behind an evaluation that reflects the meaning of the program. -/
private theorem behaviour_eq {nodes : List Node} {r : EStateM.Result Halt World Ending} {p : GkM Value}
    (h : Reflects gkSignals Anything (Told nodes false) r (p s₂)) :
    behaviour ((do
      let _ ← p
      if (← get).error.isSome then report (ascii "gk runtime error: ") else return true :
        GkM Bool) s₂) = expected r := by
  cases r with
  | ok e w =>
    obtain ⟨v, s, hrun, ht, -⟩ := h
    rw [bind_ok hrun, bind_ok (get_apply s), ht.error]
    exact congrArg₂ (Behaviour.mk (.ok true)) ht.input ht.output
  | error x w =>
    obtain ⟨v, s, hrun, -, e, rfl, he, hin, hout⟩ | ⟨y, s, hrun, hin, hout, hstop⟩ := h
    · rw [bind_ok hrun, bind_ok (get_apply s), he]
      show Behaviour.mk (.ok false) s.input (s.output ++ (_ ++ (s.error.map GkError.text).getD [] ++ _)) = _
      rw [he, hin, hout]
      rfl
    · rw [bind_error hrun]
      obtain ⟨rfl, rfl⟩ | ⟨rfl, rfl⟩ := hstop
      · exact congrArg₂ (Behaviour.mk (.error .divideError)) hin hout
      · exact congrArg₂ (Behaviour.mk (.error .outOfFuel)) hin hout

/-- What is seen of a program whose tree the nodes hold. -/
theorem behaviour_of_holds (hl : gkLex src (begun m) = .ok () s₁) (hp : gkParse s₁ = .ok root s₂)
    (hroot : Holds (cell s₂.nodes) [(Stmt.block sts).toTree] [root]) (hj : allJumpsFit false sts = true)
    (fuel : Nat) :
    behaviour (gkRun fuel src (gkInit m).start) = expected (denoteProgram fuel sts m.world) := by
  have hagree := (agree_meaning s₂.nodes fuel).stmt (.block sts) false root m.world s₂ hj hroot
    (idle_parsed hl hp)
  rw [gkRun_parsed hl hp]
  exact behaviour_eq hagree

/-- Whatever the source text is, if it lexes and parses, then the nodes are those of
one program, and `gk_run` does what this program means. -/
theorem gkRun_means (hl : gkLex src (begun m) = .ok () s₁) (hp : gkParse s₁ = .ok root s₂) :
    (∃ sts, Laid (cell s₂.nodes) 0 [(Stmt.block sts).toTree] [root] s₂.nodes.length) ∧
    ∀ sts, Holds (cell s₂.nodes) [(Stmt.block sts).toTree] [root] → allJumpsFit false sts = true → ∀ fuel,
      behaviour (gkRun fuel src (gkInit m).start) = expected (denoteProgram fuel sts m.world) := by
  refine ⟨?_, fun sts hroot hj fuel => behaviour_of_holds hl hp hroot hj fuel⟩
  obtain ⟨rfl, sts, hlaid⟩ := gkParse_tree hp
  exact ⟨sts, hlaid⟩

theorem gkRun_means_sample : ∃ s₁ s₂, gkLex (programText sampleProgram) (begun (freshState [])) = .ok () s₁ ∧
    gkParse s₁ = .ok 0 s₂ ∧ Holds (cell s₂.nodes) [(Stmt.block sampleProgram).toTree] [0] ∧
    ∀ fuel, behaviour (gkRun fuel (programText sampleProgram) (gkInit (freshState [])).start) =
      expected (denoteProgram fuel sampleProgram (freshState []).world) := by
  obtain ⟨s₁, s₂, hl, hp, hopen, -⟩ := sampleProgram_writable.reads (begun (freshState []))
  exact ⟨s₁, s₂, hl, hp, hopen.close.holds, (gkRun_means hl hp).2 sampleProgram hopen.close.holds (by decide)⟩

/-- A program that is written down and run does what it means, whatever ran before. -/
theorem gkRun_programText (h : Writable sts) (hj : allJumpsFit false sts = true) (m : GkState) (fuel : Nat) :
    behaviour (gkRun fuel (programText sts) (gkInit m).start) = expected (denoteProgram fuel sts m.world) := by
  obtain ⟨s₁, s₂, hl, hp, hopen, -⟩ := h.reads (begun m)
  exact behaviour_of_holds hl hp hopen.close.holds hj fuel

theorem gkRun_programText_sample :
    (behaviour (gkRun 20 (programText sampleProgram) (gkInit (freshState [])).start)).output =
      ascii "5\ni 1\n" := by
  rw [gkRun_programText sampleProgram_writable (by decide)]
  decide +kernel

end GeckoOS.Gk
