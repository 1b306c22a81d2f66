import GeckoOS.Gk.Language
import GeckoOS.Gk.Locals
import GeckoOS.Gk.Jumps
import GeckoOS.Gk.ExprMeaning
import GeckoOS.Lib.Signals

/-! The stack of scopes in the array of variables, and the jumps in the flags: which
states of the interpreter show which ones of the language. -/
namespace GeckoOS.Gk
open Lib

/-- The variables of the scopes, the innermost of which comes first here and last in the array. -/
def flat : List Frame → List Var
  | [] => []
  | f :: fs => flat fs ++ f.vars.map fun x => ⟨x.1, x.2, fs.length⟩

/-- The node of a definition has its parameters and the tree of its body. -/
structure Defined (nodes : List Node) (f : List UInt8 × Func) (d : FuncDef) : Prop where
  name : d.name = f.1
  params : d.params = f.2.params
  jumps : f.2.body.jumpsFit false = true
  body : ∃ b, d.bodyNode = some b ∧ Holds (cell nodes) [f.2.body.toTree] [b]

structure Shown (nodes : List Node) (w : World) (s : Run) : Prop where
  nodes_eq : s.nodes = nodes
  vars : s.vars = flat (w.top :: w.outer)
  depth : s.callDepth = w.outer.length
  funcs : List.Forall₂ (Defined nodes) w.funcs s.funcs
  input : s.input = w.input
  output : s.output = w.output
  error : s.error = none

/-- Shown, with no flag set. -/
structure Idle (nodes : List Node) (w : World) (s : Run) : Prop extends Shown nodes w s where
  clean : s.Clean

variable {nodes : List Node} {w : World} {s s' : Run} {fs : List Frame} {f : Frame} {name : List UInt8}
  {val v : Value}
  {α : Type}

/-! ### The variables -/

theorem length_flat (fs : List Frame) : (flat fs).length = (fs.flatMap Frame.vars).length := by
  induction fs with
  | nil => rfl
  | cons f fs ih =>
    rw [flat, List.length_append, List.length_map, ih, List.flatMap_cons, List.length_append]
    exact Nat.add_comm _ _

theorem scope_flat : ∀ v ∈ flat fs, v.scope < (fs.length : Int) := by
  induction fs with
  | nil => simp [flat]
  | cons f fs ih =>
    intro v hv
    rw [List.length_cons]
    obtain hv | hv := List.mem_append.mp hv
    · have hlt := ih v hv
      omega
    · obtain ⟨x, -, rfl⟩ := List.mem_map.mp hv
      show (fs.length : Int) < _
      omega

private theorem find_frame {d : Int} {l : List (List UInt8 × Value)} (hl : (l.map Prod.fst).Nodup) :
    (findVar (l.map fun x => ⟨x.1, x.2, d⟩) name).map Var.val = l.lookup name := by
  induction l with
  | nil => rfl
  | cons x l ih =>
    obtain ⟨hx, hl⟩ := List.nodup_cons.mp hl
    have ih := ih hl
    rw [findVar] at ih ⊢
    rw [List.map_cons, List.reverse_cons, List.find?_append, Option.map_or, ih, List.lookup_cons]
    by_cases hname : x.1 = name
    · have hnone : l.lookup name = none := by
        rw [List.lookup_eq_none_iff]
        intro p hp
        have hne : p.1 ≠ name := fun h => hx (hname ▸ h ▸ List.mem_map_of_mem hp)
        simpa using hne.symm
      simp [hname, hnone]
    · have hbeq : (name == x.1) = false := by simpa using fun h => hname h.symm
      simp [hname, hbeq]

theorem find_flat (fs : List Frame) (name : List UInt8) :
    (findVar (flat fs) name).map Var.val = fs.findSome? fun f => f.vars.lookup name := by
  induction fs with
  | nil => rfl
  | cons f fs ih =>
    rw [flat, findVar_append, Option.map_or, ih, find_frame f.distinct, List.findSome?_cons]
    cases f.vars.lookup name <;> rfl

/-- Nothing in its own scope ends the search. -/
private theorem setInScope_frame {d : Int} {l : List Var} (hscope : ∀ u ∈ l, u.scope = d)
    (hl : (l.map Var.name).Nodup) :
    setInScope d name val l =
      if name ∈ l.map Var.name then some (l.map fun u => if u.name = name then { u with val := val } else u)
      else none := by
  induction l with
  | nil => rfl
  | cons u l ih =>
    obtain ⟨hu, hl⟩ := List.nodup_cons.mp hl
    have hin : ¬ u.scope < d := by
      rw [hscope u List.mem_cons_self]
      exact Int.lt_irrefl d
    rw [setInScope, if_neg hin, ih (fun x hx => hscope x (List.mem_cons_of_mem _ hx)) hl]
    by_cases hname : u.name = name
    · have hrest : (l.map fun x => if x.name = name then { x with val := val } else x) = l := by
        refine (List.map_congr_left fun x hx => if_neg fun h => hu ?_).trans (List.map_id l)
        rw [hname, ← h]
        exact List.mem_map_of_mem hx
      simp [hname, hrest]
    · have hne : ¬ name = u.name := fun h => hname h.symm
      by_cases hmem : name ∈ l.map Var.name <;> simp [hname, hne, hmem]

/-- The search for a variable of the innermost scope. -/
theorem setInScope_flat (f : Frame) (fs : List Frame) (name : List UInt8) (val : Value) :
    setInScope fs.length name val (flat (f :: fs)).reverse =
      if name ∈ f.names then some (flat (f.set name val :: fs)).reverse else none := by
  have hnames : (f.vars.map fun x => (⟨x.1, x.2, fs.length⟩ : Var)).reverse.map Var.name = f.names.reverse := by
    rw [List.map_reverse, List.map_map]
    rfl
  rw [flat, List.reverse_append, setInScope_append scope_flat, setInScope_frame, hnames]
  · simp only [List.mem_reverse]
    by_cases hname : name ∈ f.names
    · have hset : (f.set name val).vars = f.vars.map fun x => if x.1 = name then (name, val) else x := by
        rw [Frame.set, dif_pos hname]
      rw [if_pos hname, if_pos hname, flat, hset, List.reverse_append, Option.map_some, List.map_reverse,
        List.map_map, List.map_map]
      refine congrArg (fun l => some (List.reverse l ++ _)) (List.map_congr_left fun x _ => ?_)
      by_cases hx : x.1 = name <;> simp [hx]
    · rw [if_neg hname, if_neg hname, Option.map_none]
  · intro u hu
    obtain ⟨x, -, rfl⟩ := List.mem_map.mp (List.mem_reverse.mp hu)
    rfl
  · rw [hnames]
    exact List.nodup_reverse.mpr f.distinct

theorem flat_declare (hname : name ∉ f.names) :
    flat (f.set name val :: fs) = flat (f :: fs) ++ [⟨name, val, fs.length⟩] := by
  have hset : (f.set name val).vars = f.vars ++ [(name, val)] := by rw [Frame.set, dif_neg hname]
  rw [flat, hset, List.map_append, ← List.append_assoc]
  rfl

/-- What is left when the innermost scope has ended. -/
theorem pop_flat : ((flat (f :: fs)).rdropWhile fun v => decide ((fs.length : Int) ≤ v.scope)) = flat fs := by
  rw [flat, pop_append scope_flat, List.rdropWhile_eq_nil_iff.mpr, List.append_nil]
  intro v hv
  obtain ⟨x, -, rfl⟩ := List.mem_map.mp hv
  exact decide_eq_true (Int.le_refl _)

theorem Shown.find (h : Shown nodes w s) (name : List UInt8) :
    (findVar s.vars name).map Var.val = w.lookup name := by
  rw [h.vars]
  exact find_flat _ name

/-! ### How the two end early -/

/-- Runtime errors stand in the state, and the other ends are ends of the interpreter. -/
def gkSignals : Signals Halt World Stop Run where
  flagged x w s := ∃ e, x = .error e ∧ s.error = some e ∧ s.input = w.input ∧ s.output = w.output
  thrown x w y s := s.input = w.input ∧ s.output = w.output ∧
    (x = .trap ∧ y = .divideError ∨ x = .outOfFuel ∧ y = .outOfFuel)

/-- The outcomes of expressions. -/
def Valued (nodes : List Node) (v : Value) (w : World) (v' : Value) (s : Run) : Prop := v' = v ∧ Idle nodes w s

/-- The outcomes of what either succeeds or fails with an error. -/
def Succeeds (nodes : List Node) (_ : Unit) (w : World) (b : Bool) (s : Run) : Prop := b = true ∧ Idle nodes w s

abbrev Anything (_ : Value) : Prop := True
abbrev Failed (b : Bool) : Prop := b = false

theorem passive_unlessError (rest : GkM Value) : Passive gkSignals Anything (unlessError rest) := by
  rintro _ w s ⟨e, rfl, he, hin, hout⟩
  refine ⟨.none, s, ?_, trivial, e, rfl, he, hin, hout⟩
  rw [unlessError, bind_ok (get_apply s), he]
  rfl

theorem passive_eval (fuel : Nat) (i : Option Nat) : Passive gkSignals Anything (eval fuel i) := by
  cases i with
  | none => cases fuel <;> exact Passive.pure trivial
  | some i => cases fuel <;> exact passive_unlessError _

/-- A change of the state that no error, input or output is a part of. -/
theorem passive_update {g : GkState → GkState} (he : ∀ m, (g m).error = m.error)
    (hin : ∀ m, (g m).input = m.input)
    (hout : ∀ m, (g m).output = m.output) : Passive gkSignals (fun _ => True) (update g) := by
  rintro _ w s ⟨e, rfl, h, hi, ho⟩
  exact ⟨(), _, rfl, trivial, e, rfl, (he _).trans h, (hin _).trans hi, (hout _).trans ho⟩

/-- A program that looks at the state. -/
theorem passive_get {idle : α → Prop} {k : Run → GkM α}
    (h : ∀ s, s.error ≠ none → Passive gkSignals idle (k s)) :
    Passive gkSignals idle (do k (← get)) := by
  rintro x w s ⟨e, rfl, he, hrest⟩
  rw [bind_ok (get_apply s)]
  exact h s (by rw [he]; exact Option.some_ne_none e) _ w s ⟨e, rfl, he, hrest⟩

theorem passive_goesOn : Passive gkSignals Failed loopGoesOn := by
  refine passive_get fun s he => ?_
  have hsome : s.error.isSome = true := Option.isSome_iff_ne_none.mpr he
  rw [hsome, Bool.true_or, if_pos rfl]
  exact .pure rfl

/-! ### Rules for the common shapes -/

section
variable {γ : Type} {p : Lang α} {q : GkM Value} {R : α → World → Value → Run → Prop}
  {R' : γ → World → Value → Run → Prop}

theorem reflects_value (h : Idle nodes w s) (v : Value) :
    Reflects gkSignals Anything (Valued nodes) ((pure v : Lang Value) w) ((pure v : GkM Value) s) :=
  ⟨v, s, rfl, rfl, h⟩

theorem reflects_error (h : Shown nodes w s) (e : GkError) :
    Reflects gkSignals Anything R ((throw (.error e) : Lang α) w) (evalError e s) :=
  .inl ⟨.none, _, rfl, trivial, e, rfl, rfl, h.input, h.output⟩

/-- The rest begins with a look at the error. -/
theorem reflects_checked {k : α → Lang γ} {rest : Value → GkM Value}
    (hp : Reflects gkSignals Anything R (p w) (q s)) (hR : ∀ a w' v s', R a w' v s' → s'.error = none)
    (hk : ∀ a w' v s', R a w' v s' → Reflects gkSignals Anything R' (k a w') (rest v s')) :
    Reflects gkSignals Anything R' ((p >>= k) w) ((do let v ← q; unlessError (rest v) : GkM Value) s) := by
  refine hp.bind (fun _ _ => passive_unlessError _) fun a w' v s' h => ?_
  rw [unlessError, bind_ok (get_apply s'), hR a w' v s' h]
  exact hk a w' v s' h

end

/-! ### The changes of the state -/

theorem reflects_assign (h : Idle nodes w s) (name : List UInt8) (val : Value) :
    Reflects gkSignals Failed (Succeeds nodes) (assign name val w) (setVar name val s) := by
  have hlen : s.vars.length = w.count := by rw [h.vars, length_flat, World.count]
  have hfind := setInScope_flat w.top w.outer name val
  have hcases := setVar_cases name val s
  rw [h.depth, h.vars, hfind] at hcases
  rw [← h.vars] at hcases
  rw [assign, bind_ok (get_apply w)]
  by_cases hname : name ∈ w.top.names
  · simp only [if_pos hname] at hcases
    rw [if_pos (.inl hname)]
    obtain ⟨_, ⟨⟩, hrun⟩ | ⟨⟨⟩, -⟩ | ⟨⟨⟩, -⟩ := hcases
    refine ⟨true, _, hrun, rfl, { h with vars := ?_, clean := ⟨h.clean.1, h.clean.2, h.clean.3⟩ }⟩
    exact List.reverse_reverse _
  · simp only [if_neg hname] at hcases
    obtain ⟨_, ⟨⟩, -⟩ | ⟨-, hroom, hrun⟩ | ⟨-, hfull, hrun⟩ := hcases
    · rw [if_pos (.inr (hlen ▸ hroom))]
      refine ⟨true, _, hrun, rfl, { h with vars := ?_, clean := ⟨h.clean.1, h.clean.2, h.clean.3⟩ }⟩
      show s.vars ++ _ = _
      rw [h.vars, flat_declare hname]
    · have hno : ¬ (name ∈ w.top.names ∨ w.count < maxVars) := by
        rintro (hin | hroom)
        · exact hname hin
        · omega
      rw [if_neg hno]
      exact .inl ⟨false, _, hrun, rfl, _, rfl, rfl, h.input, h.output⟩

theorem reflects_assignAll (h : Idle nodes w s) (params : List (List UInt8 × Value)) :
    Reflects gkSignals Failed (Succeeds nodes) (assignAll params w) (bindParams params s) := by
  induction params generalizing w s with
  | nil => exact ⟨true, s, rfl, rfl, h⟩
  | cons p params ih =>
    obtain ⟨name, val⟩ := p
    rw [assignAll, bindParams]
    refine (reflects_assign h name val).bind ?_ ?_
    · rintro _ rfl
      exact .pure rfl
    · rintro _ w' _ s' ⟨rfl, h'⟩
      exact ih h'

theorem reflects_ask (h : Idle nodes w s) :
    Reflects gkSignals Anything (Valued nodes) (ask w) (readLine s) := by
  rw [ask, readLine, bind_ok (get_apply w), bind_ok (get_apply s), h.input]
  refine ⟨_, _, rfl, rfl, { h with input := ?_, output := ?_, clean := ⟨h.clean.1, h.clean.2, h.clean.3⟩ }⟩
  · rw [← h.input]
  · rw [← h.output]

theorem Idle.say (h : Idle nodes w s) (text : List UInt8) :
    ∃ s', gkPrint text s = .ok () s' ∧ Idle nodes { w with output := w.output ++ text } s' :=
  ⟨_, rfl, { h with output := by rw [← h.output], clean := ⟨h.clean.1, h.clean.2, h.clean.3⟩ }⟩

end GeckoOS.Gk
