import GeckoOS.Gk.Evaluations
import GeckoOS.Gk.Locals

/-! What a call reads of the variables of its callers, and that it sees nothing else of them. -/
namespace GeckoOS.Gk
open Lib
variable {m₁ m₂ : GkState} {d : Int} {R : Run → Run → Prop} {T : Option Nat → Run → Prop} {f : FuncDef}
  {args : List Value}
  {fuel : Nat} {s t : Run}

/-- The call `f args`, begun in `m`, searches for `name` among the variables that were there before: the
evaluation of its body leads to that of a variable which the call does not have itself. -/
def ReadsOuter (fuel : Nat) (f : FuncDef) (args : List Value) (m : GkState) (name : List UInt8) : Prop :=
  ∃ s k c t n, bindParams (f.params.zip args) ⟨{ m with callDepth := m.callDepth + 1 }, [m]⟩ = .ok true s ∧
    Evaluates (fun _ => True) fuel f.bodyNode s (k + 1) (some c) t ∧ t.error = none ∧ t.nodes[c]? = some n ∧
    n.type = .var ∧ n.strVal = name ∧ findVar (t.vars.drop m.vars.length) name = none

/-- What the call searches for there has the same value in both states, or none in both. -/
def ReadsAlike (fuel : Nat) (f : FuncDef) (args : List Value) (m₁ m₂ : GkState) : Prop :=
  ∀ name, ReadsOuter fuel f args m₁ name → (findVar m₂.vars name).map (·.val) =
    (findVar m₁.vars name).map (·.val)

open Classical in
/-- The evaluation where it is in `T`; elsewhere it is given up. -/
noncomputable def guarded (T : Option Nat → Run → Prop) (ev : Option Nat → GkM Value) :
    Option Nat → GkM Value := fun i s =>
  if T i s ∨ s.error.isSome then ev i s else evalError .tooManyVariables s

theorem eval_of_error (fuel : Nat) (i : Option Nat) (he : s.error.isSome) : eval fuel i s = .ok .none s := by
  have hat : ∀ node : Node → GkM Value, evalAt node i s = .ok .none s := by
    intro node
    cases i with
    | none => rfl
    | some c =>
      rw [evalAt, unlessError, bind_ok (get_apply s), if_pos he]
      rfl
  cases fuel with
  | zero => exact hat _
  | succ fuel => exact hat _

private theorem stays_guarded (i : Option Nat) : Stays (Lost False True) (guarded T (eval fuel) i) := by
  intro s h
  have he : s.error.isSome := by
    obtain ⟨⟨⟩, -⟩ | ⟨-, he⟩ := h
    rw [he]
    rfl
  rw [guarded, if_pos (.inr he)]
  exact stays_eval fuel i s h

private theorem steps_guarded : EvalSteps (guarded T (eval fuel)) := by
  intro i s hd
  unfold guarded
  split
  · exact stepped_eval fuel i s hd
  · next h =>
    refine stepped_evalError _ ?_
    rw [not_or, Option.not_isSome_iff_eq_none] at h
    exact h.2

private theorem inStep_guarded
    (hev : ∀ i s t, T i s → R s t → InStep False True R (eval fuel i s) (eval fuel i t))
    (hC : Coupling False True d R) (i : Option Nat) (s t : Run) (h : R s t) :
    InStep False True R (guarded T (eval fuel) i s) (eval fuel i t) := by
  unfold guarded
  split
  · next hT =>
    obtain hT | he := hT
    · exact hev i s t hT h
    · rw [eval_of_error fuel i he, eval_of_error fuel i (hC.error h ▸ he)]
      exact .ok _ h
  · exact .left (.inr ⟨trivial, rfl⟩)

/-- Evaluations run in step if those that they lead to are in `T`, and read alike there. -/
private theorem inStep_traced {T : Nat → Option Nat → Run → Prop} (hC : Coupling False True d R) (hd : 0 ≤ d)
    (hT : ∀ k c n s j u, T (k + 1) (some c) s → s.nodes[c]? = some n → s.error = none →
      Visits (fun ev => evalNode ev k n) (eval k) s j u → T k j u)
    (hfind : ∀ k c n s t, T (k + 1) (some c) s → s.nodes[c]? = some n → s.error = none → n.type = .var → R s t →
      FoundAlike s t n.strVal) (k : Nat) :
    ∀ i s t, T k i s → R s t → InStep False True R (eval k i s) (eval k i t) := by
  induction k with
  | zero => exact fun i s t _ h => inStep_evalAt hC h i fun _ _ _ _ _ => .stop _ h
  | succ k ih =>
    intro i s t hTi h
    refine inStep_evalAt hC h i fun c hc n hn he => ?_
    obtain rfl : i = some c := hc
    have hasks : Asks (fun _ : Option Nat => True) (Acts n) (fun _ => True) fun ev => evalNode ev k n :=
      asks_evalNode (fun _ => trivial) (fun _ _ => trivial) (fun _ _ => trivial) k
    have hsame : evalNode (eval k) k n s = evalNode (guarded (T k) (eval k)) k n s := by
      obtain heq | ⟨j, u, -, hv, hne⟩ := hasks.eq_or_visits (eval k) (guarded (T k) (eval k)) s
      · exact heq
      · exact absurd (if_pos (.inl (hT k c n s j u hTi hn he hv))).symm hne
    rw [hsame]
    exact inStep_evalNode hC h stays_guarded (stays_eval k) (inStep_guarded ih hC) hd steps_guarded (.inl rfl)
      (fun ht => hfind k c n s t hTi hn he ht h) he

/-- A body asks for its evaluation and for nothing else. -/
private theorem runBody_guarded (hT : T f.bodyNode s) :
    runBody (eval fuel) f s = runBody (guarded T (eval fuel)) f s := by
  have hasks : Asks (fun _ : Option Nat => True) (Acts ⟨.call, 0, 0, [], .int, []⟩)
    (fun _ => True) fun ev => runBody ev f :=
    asks_runBody (fun _ => trivial) f
  obtain heq | ⟨j, u, -, hv, hne⟩ := hasks.eq_or_visits (eval fuel) (guarded T (eval fuel)) s
  · exact heq
  · obtain ⟨rfl, rfl⟩ | ⟨v, s', -, hv⟩ := visits_ask_bind.mp hv
    · exact absurd (if_pos (.inl hT)).symm hne
    · exact absurd hv (not_visits_act _)

private theorem sameOutcome_of_alike {r₁ r₂ : EStateM.Result Stop Run Value}
    (h : InStep False True (fun s t => s.output = t.output ∧ s.error = t.error) r₁ r₂)
    (h₁ : (final r₁).error ≠ some .tooManyVariables)
    (h₂ : (final r₂).error ≠ some .tooManyVariables) : SameOutcome r₁ r₂ := by
  cases h with
  | ok a h => exact ⟨h.1, h.2, rfl⟩
  | stop e h => exact ⟨h.1, h.2, rfl⟩
  | left h => exact absurd (h.resolve_left fun h => h.1).2 h₁
  | right h => exact absurd (h.resolve_left fun h => h.1).2 h₂

/-- The outcomes of a call in two states that differ in nothing but variables of calls in
progress are the same if what the call reads of these is the same, unless the array of the
variables is too small. -/
theorem call_sameOutcome (h : SameGlobals m₁ m₂) (hread : ReadsAlike fuel f args m₁ m₂)
    (h₁ : (final (applyFunc (eval fuel) f args m₁.start)).error ≠ some .tooManyVariables)
    (h₂ : (final (applyFunc (eval fuel) f args m₂.start)).error ≠ some .tooManyVariables) :
    SameOutcome (applyFunc (eval fuel) f args m₁.start) (applyFunc (eval fuel) f args m₂.start) := by
  have hd := h.scoped₁.depth_nonneg
  have hdepth : m₂.callDepth = m₁.callDepth := (congrArg GkState.callDepth h.rest :)
  have hC : Coupling False True (m₁.callDepth + 1) (Twins m₁.nodes (m₁.callDepth + 1) m₁.vars m₂.vars) :=
    coupling_twins (fun v hv => Int.lt_add_one_of_le (h.scoped₁.scope_le v hv))
      (fun v hv => Int.lt_add_one_of_le (hdepth ▸ h.scoped₂.scope_le v hv))
  have hobs : ∀ s t : Run, Twins m₁.nodes (m₁.callDepth + 1) m₁.vars m₂.vars s t → s.output = t.output ∧
    s.error = t.error :=
    fun s t ht => ⟨(congrArg GkState.output ht.rest :).symm, (congrArg GkState.error ht.rest :).symm⟩
  have henter : Twins m₁.nodes (m₁.callDepth + 1) m₁.vars m₂.vars
      ⟨{ m₁ with callDepth := m₁.callDepth + 1 }, [m₁]⟩ ⟨{ m₂ with callDepth := m₂.callDepth + 1 }, [m₂]⟩ := by
    refine ⟨Int.le_refl _, rfl, ?_, [], (List.append_nil _).symm, (List.append_nil _).symm⟩
    exact (congrArg (fun m : GkState => { m with callDepth := m.callDepth + 1 }) h.rest :)
  have hleave : ∀ (v : Value) (s t : Run), Twins m₁.nodes (m₁.callDepth + 1) m₁.vars m₂.vars s t →
      InStep False True (fun s t => s.output = t.output ∧ s.error = t.error)
        ((do leaveCall; return v : GkM Value) s)
        ((do leaveCall; return v : GkM Value) t) := fun v s t ht => .ok v (hobs s t ht)
  have hcall : InStep False True (fun s t => s.output = t.output ∧ s.error = t.error)
      (applyFunc (eval fuel) f args m₁.start) (applyFunc (eval fuel) f args m₂.start) := by
    refine (inStep_bindParams hC henter (f.params.zip args)).andThen hobs
      (fun b => stays_called (stays_eval fuel) f b)
      (fun b => stays_called (stays_eval fuel) f b) fun b s t hs ht => ?_
    cases b with
    | false => exact hleave _ s t ht
    | true =>
      -- the trace of the body, on which the searches behind the call's own variables are alike
      have htrace := inStep_traced (T := fun k i u => Evaluates (fun _ => True) fuel f.bodyNode s k i u)
        hC (Int.le_add_one hd)
        (fun k c n s' j u hT hn he hv => hT.trans (.step hn he trivial hv (.refl _ k j u)))
        (fun k c n s' t' hT hn he htype ht' => by
          obtain ⟨l, hs', ht'⟩ := ht'.vars
          rw [FoundAlike, hs', ht', findVar_append, findVar_append]
          cases hown : findVar l n.strVal with
          | some v => rfl
          | none =>
            refine hread n.strVal ⟨s, k, c, s', n, hs, hT, he, hn, htype, rfl, ?_⟩
            rw [hs', List.drop_left]
            exact hown) fuel
      have hbody : InStep False True (Twins m₁.nodes (m₁.callDepth + 1) m₁.vars m₂.vars)
        (runBody (eval fuel) f s)
          (runBody (eval fuel) f t) := by
        rw [runBody_guarded (T := fun i u => Evaluates (fun _ => True) fuel f.bodyNode s fuel i u)
          (.refl _ _ _ _)]
        exact inStep_runBody hC ht (inStep_guarded htrace hC) f
      exact hbody.andThen hobs (fun _ => stays_leave _) (fun _ => stays_leave _) fun v s' t' _ ht' =>
        hleave v s' t' ht'
  exact sameOutcome_of_alike hcall h₁ h₂

/-- `def f(x): return x`, called by a function that has an `x` too. -/
def insideCall (v : Int) : GkState :=
  { freshState [] with
    nodes := [⟨.block, 1, 0, [], .int, [1]⟩, ⟨.returnNode, 1, 0, [], .int, [2]⟩,
      ⟨.var, 1, 0, ascii "x", .int, []⟩],
    vars := [⟨ascii "x", .int v, 1⟩], funcs := [⟨ascii "f", [ascii "x"], some 0⟩], callDepth := 1 }

private theorem scoped_insideCall (v : Int) : Scoped (insideCall v) := by
  constructor <;> simp [insideCall, freshState, maxVars, maxFuncs, maxCallDepth]

/-- The body asks for the `return` and that for the variable, in the state that the parameter has left. -/
private theorem visits_insideCall {v : Int} {k c : Nat} {n : Node} {j : Option Nat} {u : Run}
    (hnodes : s.nodes = (insideCall v).nodes)
    (hn : s.nodes[c]? = some n) (hv : Visits (fun ev => evalNode ev k n) (eval k) s j u) :
    u = s ∧ (j = some 1 ∨ j = some 2) := by
  rw [hnodes] at hn
  match c with
  | 0 =>
    obtain rfl := Option.some.inj hn
    obtain ⟨rfl, rfl⟩ | ⟨r, s', -, h⟩ := visits_ask_bind.mp hv
    · exact ⟨rfl, .inl rfl⟩
    · change Visits (fun _ => (do
        let s ← get
        if s.error.isSome || s.returning || s.breaking || s.continuing then return r else return r :
          GkM Value)) _ _ _ _ at h
      exact absurd h (not_visits_act _)
  | 1 =>
    obtain rfl := Option.some.inj hn
    obtain ⟨rfl, rfl⟩ | ⟨r, s', -, h⟩ := visits_ask_bind.mp hv
    · exact ⟨rfl, .inr rfl⟩
    · exact absurd h (not_visits_act _)
  | 2 =>
    obtain rfl := Option.some.inj hn
    exact absurd hv (not_visits_act _)
  | c + 3 => cases hn

/-- The variable that the call has found is its own. -/
private theorem not_readsOuter_insideCall {v : Int} {name : List UInt8} :
    ¬ ReadsOuter fuel ⟨ascii "f", [ascii "x"], some 0⟩ [.int 3] (insideCall v) name := by
  rintro ⟨s, k, c, t, n, hs, h, -, hn, ht, rfl, hown⟩
  have hbound : bindParams ([ascii "x"].zip [.int 3]) ⟨{ insideCall v with callDepth := 2 }, [insideCall v]⟩ =
      .ok true ⟨{ insideCall v with callDepth := 2, vars := (insideCall v).vars ++ [⟨ascii "x", .int 3, 2⟩] },
        [{ insideCall v with callDepth := 2 }, insideCall v]⟩ := rfl
  obtain rfl := (EStateM.Result.ok.inj (hbound.symm.trans hs)).2
  obtain ⟨rfl, hi⟩ := h.invariant (I := fun i u => u = _ ∧ (i = some 0 ∨ i = some 1 ∨ i = some 2))
    (fun k c n s l u hn _ _ hv hI => by
      obtain ⟨rfl, -⟩ := hI
      obtain ⟨rfl, hj⟩ := visits_insideCall (v := v) rfl hn hv
      exact ⟨rfl, .inr hj⟩) ⟨rfl, .inl rfl⟩
  simp only [Option.some.injEq] at hi
  obtain rfl | rfl | rfl := hi
  · obtain rfl := Option.some.inj hn
    cases ht
  · obtain rfl := Option.some.inj hn
    cases ht
  · obtain rfl := Option.some.inj hn
    cases hown

/-- The call goes the same way, whatever its caller's `x` is. -/
theorem call_sameOutcome_shadowed : SameOutcome
    (applyFunc (eval 4) ⟨ascii "f", [ascii "x"], some 0⟩ [.int 3] (insideCall 1).start)
    (applyFunc (eval 4) ⟨ascii "f", [ascii "x"], some 0⟩ [.int 3] (insideCall 2).start) :=
  call_sameOutcome ⟨rfl, rfl, rfl, by decide, scoped_insideCall 1, scoped_insideCall 2⟩
    (fun _ h => absurd h not_readsOuter_insideCall) (by decide +kernel) (by decide +kernel)

/-- `g` reads a variable that only its caller `f` has. -/
def callerSource : List UInt8 := ascii "def g():\n return x\ndef f(x):\n return g()\nprint(f(input()))\n"

/-- The state in which `f` calls `g`, if this line was typed in. -/
def callerState (line : List UInt8) : Option GkState :=
  (final (gkRun 20 callerSource (gkInit (freshState [line])).start)).moments.reverse.find? fun m =>
    m.callDepth = 1 && m.vars.length = 1

/-- The result, if there is one. -/
def valueOf : EStateM.Result Stop Run Value → Option Value
  | .ok v _ => some v
  | .error _ _ => none

private theorem callerState_facts : (callerState (ascii "1")).isSome = true ∧
    (callerState (ascii "2")).isSome = true ∧
    ∀ m₁ ∈ callerState (ascii "1"), ∀ m₂ ∈ callerState (ascii "2"), m₁.error = none ∧ m₁.returning = false ∧
      m₂ = { m₁ with vars := m₂.vars } ∧ m₂.vars.filter (fun v => v.scope = 0) =
        m₁.vars.filter (fun v => v.scope = 0) ∧
      ∃ f ∈ m₁.funcs, f.name = ascii "g" ∧ ∀ r₁ ∈ [applyFunc (eval 20) f [] m₁.start],
        ∀ r₂ ∈ [applyFunc (eval 20) f [] m₂.start], (final r₁).error = none ∧ (final r₂).error = none ∧
          valueOf r₁ = some (.str (ascii "1")) ∧ valueOf r₂ = some (.str (ascii "2")) := by
  decide +kernel

private theorem scoped_callerState {line : List UInt8} {m : GkState} (hm : callerState line = some m)
    (he : m.error = none) :
    Scoped m :=
  ordered_gkRun _ _ _ m (List.mem_reverse.mp (List.mem_of_find?_eq_some hm)) he

private theorem valueOf_eq {r₁ r₂ : EStateM.Result Stop Run Value} (h : SameOutcome r₁ r₂) :
    valueOf r₁ = valueOf r₂ := by
  obtain ⟨-, -, h⟩ := h
  cases r₁ <;> cases r₂
  · exact congrArg some h
  · cases h
  · cases h
  · rfl

/-- Two runs of one program in which the call of `g` sees a variable of its caller. -/
theorem caller_visible : ∃ m₁ m₂ f, callerState (ascii "1") = some m₁ ∧ callerState (ascii "2") = some m₂ ∧
    SameGlobals m₁ m₂ ∧ f ∈ m₁.funcs ∧ f.name = ascii "g" ∧
    (final (applyFunc (eval 20) f [] m₁.start)).error = none ∧
    (final (applyFunc (eval 20) f [] m₂.start)).error = none ∧
    ¬ SameOutcome (applyFunc (eval 20) f [] m₁.start) (applyFunc (eval 20) f [] m₂.start) := by
  obtain ⟨h₁, h₂, hfacts⟩ := callerState_facts
  obtain ⟨m₁, hm₁⟩ := Option.isSome_iff_exists.mp h₁
  obtain ⟨m₂, hm₂⟩ := Option.isSome_iff_exists.mp h₂
  obtain ⟨he, hr, hrest, hglobals, f, hf, hname, houtcomes⟩ := hfacts m₁ hm₁ m₂ hm₂
  obtain ⟨he₁, he₂, hv₁, hv₂⟩ := houtcomes _ (List.mem_singleton.mpr rfl) _ (List.mem_singleton.mpr rfl)
  have hm₂' : m₂.error = none := (congrArg GkState.error hrest :).trans he
  refine ⟨m₁, m₂, f, hm₁, hm₂,
    ⟨he, hr, hrest, hglobals, scoped_callerState hm₁ he, scoped_callerState hm₂ hm₂'⟩, hf, hname, he₁,
    he₂, fun hsame => ?_⟩
  have hv := valueOf_eq hsame
  rw [hv₁, hv₂] at hv
  revert hv
  decide

end GeckoOS.Gk
