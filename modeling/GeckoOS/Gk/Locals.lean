import GeckoOS.Gk.Lockstep
import GeckoOS.Gk.Scopes

/-! What a call can see of the variables of its callers. -/
namespace GeckoOS.Gk
open Lib

/-- Two states in which a call may begin and which differ in nothing but the
variables of calls in progress. -/
structure SameGlobals (m₁ m₂ : GkState) : Prop where
  error : m₁.error = none
  returning : m₁.returning = false
  rest : m₂ = { m₁ with vars := m₂.vars }
  globals : m₂.vars.filter (fun v => v.scope = 0) = m₁.vars.filter fun v => v.scope = 0
  scoped₁ : Scoped m₁
  scoped₂ : Scoped m₂

/-- The same result, output and error, or the same stop. -/
def SameOutcome (r₁ r₂ : EStateM.Result Stop Run Value) : Prop :=
  (final r₁).output = (final r₂).output ∧ (final r₁).error = (final r₂).error ∧
    match r₁, r₂ with
    | .ok v₁ _, .ok v₂ _ => v₁ = v₂
    | .error e₁ _, .error e₂ _ => e₁ = e₂
    | _, _ => False

variable {m₁ m₂ : GkState} {d : Int} {b₁ b₂ l : List Var} {name : List UInt8} {val : Value} {s t : Run}

/-- Behind different variables of outer scopes stand the same ones of this scope and of those inside. -/
structure Twins (nodes : List Node) (d : Int) (b₁ b₂ : List Var) (s t : Run) : Prop where
  depth : d ≤ s.callDepth
  nodes_eq : s.nodes = nodes
  rest : t.toGkState = { s.toGkState with vars := t.vars }
  vars : ∃ l, s.vars = b₁ ++ l ∧ t.vars = b₂ ++ l

theorem findVar_append (b l : List Var) (name : List UInt8) :
    findVar (b ++ l) name = (findVar l name).or (findVar b name) := by
  rw [findVar, List.reverse_append, List.find?_append]
  rfl

/-- The search does not reach the outer scopes. -/
theorem setInScope_append (hb : ∀ v ∈ b₁, v.scope < d) (l : List Var) :
    setInScope d name val (l ++ b₁.reverse) = (setInScope d name val l).map (· ++ b₁.reverse) := by
  induction l with
  | nil =>
    rw [List.nil_append]
    cases hr : b₁.reverse with
    | nil => rfl
    | cons v vs =>
      have hv : v ∈ b₁ := List.mem_reverse.mp (hr ▸ List.mem_cons_self)
      exact if_pos (hb v hv)
  | cons v l ih =>
    rw [List.cons_append, setInScope, setInScope, ih]
    split
    · rfl
    · split
      · rfl
      · cases setInScope d name val l <;> rfl

theorem pop_append (hb : ∀ v ∈ b₁, v.scope < d) (l : List Var) :
    ((b₁ ++ l).rdropWhile fun v => d ≤ v.scope) = b₁ ++ l.rdropWhile fun v => d ≤ v.scope := by
  induction l using List.reverseRecOn with
  | nil =>
    rw [List.append_nil, List.rdropWhile_nil, List.append_nil, List.rdropWhile_eq_self_iff]
    intro hne hle
    have hlt := hb _ (List.getLast_mem hne)
    simp only [decide_eq_true_eq] at hle
    omega
  | append_singleton l v ih =>
    rw [← List.append_assoc, List.rdropWhile_concat, List.rdropWhile_concat, ih]
    split
    · rfl
    · rw [List.append_assoc]

/-- Setting a variable of this scope or one inside does the same in both. -/
private theorem twins_setVar {nodes : List Node} (hb₁ : ∀ v ∈ b₁, v.scope < d) (hb₂ : ∀ v ∈ b₂, v.scope < d)
    (h : Twins nodes d b₁ b₂ s t) (name : List UInt8) (val : Value) :
    InStep False True (Twins nodes d b₁ b₂) (setVar name val s) (setVar name val t) := by
  obtain ⟨hd, hn, hrest, l, hs, ht⟩ := h
  have hdt : t.callDepth = s.callDepth := (congrArg GkState.callDepth hrest :)
  have hfind : ∀ {b : List Var}, (∀ v ∈ b, v.scope < d) → setInScope s.callDepth name val (b ++ l).reverse =
      (setInScope s.callDepth name val l.reverse).map (· ++ b.reverse) := by
    intro b hb
    rw [List.reverse_append]
    exact setInScope_append (fun v hv => Int.lt_of_lt_of_le (hb v hv) hd) l.reverse
  have hfind₁ := hfind hb₁
  have hfind₂ := hfind hb₂
  rw [← hs] at hfind₁
  rw [← ht, ← hdt] at hfind₂
  have hcases₁ := setVar_cases name val s
  have hcases₂ := setVar_cases name val t
  rw [hfind₁] at hcases₁
  rw [hfind₂, hdt] at hcases₂
  cases hset : setInScope s.callDepth name val l.reverse with
  | some vs =>
    rw [hset] at hcases₁ hcases₂
    obtain ⟨_, ⟨⟩, hrun₁⟩ | ⟨⟨⟩, -⟩ | ⟨⟨⟩, -⟩ := hcases₁
    obtain ⟨_, ⟨⟩, hrun₂⟩ | ⟨⟨⟩, -⟩ | ⟨⟨⟩, -⟩ := hcases₂
    rw [hrun₁, hrun₂]
    refine .ok _ ⟨hd, hn, ?_, vs.reverse, ?_, ?_⟩
    · rw [hrest]
    · simp
    · simp
  | none =>
    rw [hset] at hcases₁ hcases₂
    obtain ⟨_, ⟨⟩, -⟩ | ⟨-, -, hrun₁⟩ | ⟨-, -, hrun₁⟩ := hcases₁
    · obtain ⟨_, ⟨⟩, -⟩ | ⟨-, -, hrun₂⟩ | ⟨-, -, hrun₂⟩ := hcases₂
      · rw [hrun₁, hrun₂]
        refine .ok _ ⟨hd, hn, ?_, l ++ [⟨name, val, s.callDepth⟩], ?_, ?_⟩
        · rw [hrest]
        · simp [hs]
        · simp [ht]
      · rw [hrun₂]
        exact .right (.inr ⟨trivial, rfl⟩)
    · rw [hrun₁]
      exact .left (.inr ⟨trivial, rfl⟩)

theorem coupling_twins {nodes : List Node} (hb₁ : ∀ v ∈ b₁, v.scope < d) (hb₂ : ∀ v ∈ b₂, v.scope < d) :
    Coupling False True d (Twins nodes d b₁ b₂) where
  rest := fun h => h.rest
  depth := fun h => h.depth
  change := by
    intro s t f hf hn hd h
    obtain ⟨l, hs, ht⟩ := h.vars
    have hvars : ∀ m, (f m).vars = m.vars := fun m => (congrArg GkState.vars (hf m m.vars) :)
    refine ⟨hd, (hn _).trans h.nodes_eq, ?_, l, (hvars _).trans hs, (hvars _).trans ht⟩
    change f t.toGkState = { f s.toGkState with vars := (f t.toGkState).vars }
    rw [hvars, ← hf, ← h.rest]
  set := fun h => twins_setVar hb₁ hb₂ h
  pop := by
    intro s t h
    obtain ⟨l, hs, ht⟩ := h.vars
    have hdt : t.callDepth = s.callDepth := (congrArg GkState.callDepth h.rest :)
    refine ⟨h.depth, h.nodes_eq, ?_, l.rdropWhile fun v => s.callDepth ≤ v.scope, ?_, ?_⟩
    · exact (congrArg (fun m : GkState => { m with vars := (final (popScope t)).vars }) h.rest :)
    · change (s.vars.rdropWhile fun v => s.callDepth ≤ v.scope) = _
      rw [hs]
      exact pop_append (fun v hv => Int.lt_of_lt_of_le (hb₁ v hv) h.depth) l
    · change (t.vars.rdropWhile fun v => t.callDepth ≤ v.scope) = _
      rw [ht, hdt]
      exact pop_append (fun v hv => Int.lt_of_lt_of_le (hb₂ v hv) h.depth) l

end GeckoOS.Gk
