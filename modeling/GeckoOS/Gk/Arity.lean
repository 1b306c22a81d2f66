import GeckoOS.Gk.Activations

/-! The parameters of a function and the arguments of its calls. -/
namespace GeckoOS.Gk
open Lib

/-- All parameters of a definition. -/
def Node.paramNames (d : Node) (nodes : List Node) : List (List UInt8) :=
  d.children.dropLast.map fun c => (nodes[c]?.map (·.strVal)).getD []

/-- The definition that an entry in the table of functions comes from. -/
def Defines (nodes : List Node) (f : FuncDef) (d : Node) : Prop :=
  d ∈ nodes ∧ d.type = .defNode ∧ d.func nodes = f

/-- As many arguments as parameters, and each of these bound to its own argument. -/
def BoundRight (names : List (List UInt8)) (args : List Value) (u : Run) : Prop :=
  names.length = args.length ∧ ∀ p ∈ names.zip args, findVar u.vars p.1 = some ⟨p.1, p.2, u.callDepth⟩

variable {nodes : List Node} {s s' t u : Run} {d n : Node} {f : FuncDef} {name other : List UInt8}
  {val : Value} {l vs : List Var}
  {ps : List (List UInt8 × Value)} {args : List Value} {cs : List Nat} {ev : Option Nat → GkM Value}
  {depth : Int}

theorem func_params (d : Node) (nodes : List Node) :
    (d.func nodes).params = (d.paramNames nodes).take maxParams :=
  List.map_take

/-! What `set_var` makes of the names. -/

theorem setInScope_find (h : setInScope depth name val l = some vs) :
    (∃ v, vs.find? (fun v => v.name = name) = some v ∧ v.name = name ∧ v.val = val ∧ depth ≤ v.scope) ∧
    ∀ other, other ≠ name → vs.find? (fun v => v.name = other) = l.find? fun v => v.name = other := by
  fun_induction setInScope depth name val l generalizing vs with
  | case1 => cases h
  | case2 => cases h
  | case3 v l hscope hname =>
    cases h
    refine ⟨⟨_, List.find?_cons_of_pos (by simpa using hname), hname, rfl, Int.not_lt.mp hscope⟩,
      fun other hother => ?_⟩
    have hne : ¬ v.name = other := fun heq => hother (heq.symm.trans hname)
    rw [List.find?_cons_of_neg (by simpa using hne), List.find?_cons_of_neg (by simpa using hne)]
  | case4 v l hscope hname ih =>
    obtain ⟨ws, hws, rfl⟩ := Option.map_eq_some_iff.mp h
    obtain ⟨⟨w, hfind, hw⟩, hrest⟩ := ih hws
    refine ⟨⟨w, ?_, hw⟩, fun other hother => ?_⟩
    · rw [List.find?_cons_of_neg (by simpa using hname)]
      exact hfind
    · rw [List.find?_cons, List.find?_cons, hrest other hother]

/-- The name has the value in the scope of the call, and the other names keep theirs. -/
theorem findVar_setVar (hs : ∀ v ∈ s.vars, v.scope ≤ s.callDepth) (h : setVar name val s = .ok true s') :
    (∀ v ∈ s'.vars, v.scope ≤ s.callDepth) ∧ findVar s'.vars name = some ⟨name, val, s.callDepth⟩ ∧
      ∀ other, other ≠ name → findVar s'.vars other = findVar s.vars other := by
  obtain ⟨vs, hset, hrun⟩ | ⟨-, -, hrun⟩ | ⟨-, -, hrun⟩ := setVar_cases name val s
  all_goals
    rw [hrun] at h
    cases h
  · obtain ⟨⟨v, hfind, hname, hval, hscope⟩, hrest⟩ := setInScope_find hset
    have hle : ∀ v ∈ vs, v.scope ≤ s.callDepth := by
      intro v hv
      have hkey : (v.name, v.scope) ∈ vs.map fun v => (v.name, v.scope) := List.mem_map_of_mem hv
      rw [setInScope_keys hset] at hkey
      obtain ⟨w, hw, heq⟩ := List.mem_map.mp hkey
      rw [← (Prod.mk.inj heq).2]
      exact hs w (List.mem_reverse.mp hw)
    refine ⟨fun v hv => hle v (List.mem_reverse.mp hv), ?_, fun other hother => ?_⟩
    · have heq : v = ⟨name, val, s.callDepth⟩ := by
        obtain ⟨vname, vval, vscope⟩ := v
        cases hname
        cases hval
        have := hle _ (List.mem_of_find?_eq_some hfind)
        simp only [Var.mk.injEq, true_and]
        exact Int.le_antisymm this hscope
      simp only [findVar, List.reverse_reverse]
      rw [hfind, heq]
    · simp only [findVar, List.reverse_reverse]
      exact hrest other hother
  · refine ⟨fun v hv => ?_, ?_, fun other hother => ?_⟩
    · obtain hv | hv := List.mem_append.mp hv
      · exact hs v hv
      · rw [List.mem_singleton.mp hv]
    · simp [findVar]
    · simp only [findVar, List.reverse_append, List.reverse_singleton, List.singleton_append]
      exact List.find?_cons_of_neg (by simpa using hother.symm)

/-- A name has the last value that is bound to it. -/
theorem findVar_bindParams (hs : ∀ v ∈ s.vars, v.scope ≤ s.callDepth) (h : bindParams ps s = .ok true u)
    (name : List UInt8) :
    findVar u.vars name =
      ((ps.reverse.find? fun p => p.1 = name).map fun p => ⟨p.1, p.2, s.callDepth⟩).or
        (findVar s.vars name) := by
  induction ps generalizing s with
  | nil =>
    cases h
    rfl
  | cons p ps ih =>
    obtain ⟨b, s₁, hset, h⟩ := bind_eq_ok h
    cases b with
    | false => cases h
    | true =>
      obtain ⟨hle, hfind, hrest⟩ := findVar_setVar hs hset
      have hd := (setVar_plain hset).2
      rw [ih (by rwa [hd]) h, hd, List.reverse_cons, List.find?_append]
      cases hlast : ps.reverse.find? fun p => p.1 = name with
      | some q => rfl
      | none =>
        simp only [Option.none_or, Option.map_none]
        by_cases hname : p.1 = name
        · subst hname
          simp [hfind]
        · simp [hname, hrest name fun heq => hname heq.symm]

theorem evalArgs_length (h : evalArgs ev cs s = .ok (some args) s') : args.length = cs.length := by
  induction cs generalizing s args with
  | nil =>
    cases h
    rfl
  | cons c cs ih =>
    obtain ⟨v, s₁, -, h⟩ := bind_eq_ok h
    rw [bind_ok (get_apply s₁)] at h
    split at h
    · cases h
    · obtain ⟨vs, s₂, hrest, h⟩ := bind_eq_ok h
      cases vs with
      | none => cases h
      | some vs =>
        cases h
        rw [List.length_cons, List.length_cons, ih hrest]

/-- The binding of the parameters that are kept. The others are as if they were
not there, and of equal names the last one counts. -/
theorem boundRight_iff {names : List (List UInt8)} (hs : ∀ v ∈ s.vars, v.scope ≤ s.callDepth)
    (hlen : args.length = (names.take maxParams).length)
    (h : bindParams ((names.take maxParams).zip args) s = .ok true u) :
    BoundRight names args u ↔
      names.length ≤ maxParams ∧ ∀ p ∈ names.zip args, ∀ q ∈ names.zip args, p.1 = q.1 → p.2 = q.2 := by
  rw [List.length_take] at hlen
  constructor
  · rintro ⟨hall, hbound⟩
    refine ⟨by omega, fun p hp q hq heq => ?_⟩
    have hfind := hbound p hp
    rw [heq, hbound q hq] at hfind
    exact (Var.mk.inj (Option.some.inj hfind)).2.1.symm
  · rintro ⟨hfew, hsame⟩
    rw [List.take_of_length_le hfew] at h
    refine ⟨by omega, fun p hp => ?_⟩
    have hlast : ((names.zip args).reverse.find? fun q => q.1 = p.1).isSome = true := by
      rw [List.find?_isSome]
      exact ⟨p, List.mem_reverse.mpr hp, by simp⟩
    obtain ⟨q, hq⟩ := Option.isSome_iff_exists.mp hlast
    have hname : q.1 = p.1 := by simpa using List.find?_some hq
    have hval := hsame q (List.mem_reverse.mp (List.mem_of_find?_eq_some hq)) p hp hname
    rw [findVar_bindParams hs h, hq, (bindParams_plain h).2, Option.map_some, Option.some_or, hname, hval]

/-! Every entry in the table of functions comes from a definition. -/

theorem Evaluates.defined {via : NodeType → Prop} {fuel fuel' : Nat} {i j : Option Nat}
    (h : Evaluates via fuel i s fuel' j t)
    (hs : s.funcs = []) : ∀ f ∈ t.funcs, ∃ d, Defines t.nodes f d := by
  refine (h.keeps (I := fun x => x.nodes = s.nodes ∧ ∀ f ∈ x.funcs, ∃ d, Defines x.nodes f d) ?_
    ⟨rfl, by simp [hs]⟩).2
  rintro x ⟨hx, -⟩ n hn y y' hacts ⟨hy, hdef⟩
  refine ⟨hacts.nodes.trans hy, fun f hf => ?_⟩
  rw [hacts.nodes]
  obtain hf | ⟨htype, rfl⟩ := hacts.funcs f hf
  · exact hdef f hf
  · exact ⟨n, hy.trans hx.symm ▸ hn, htype, rfl⟩

variable {m : GkState} {src : List UInt8} {s₁ s₂ : Run} {root fuel : Nat}

/-- Too many parameters are rejected exactly if there are not too many or the
table is full; and a call that evaluates the body of its function has bound each
parameter of the definition to its own argument exactly if there are not too many
and equal names have equal arguments. -/
theorem arity_checked_iff (hl : gkLex src (begun m) = .ok () s₁) (hp : gkParse s₁ = .ok root s₂) :
    (∀ k j t d, Evaluates (fun _ => True) fuel (some root) s₂ (k + 1) (some j) t →
      t.nodes[j]? = some d → d.type = .defNode →
      t.error = none → ((maxParams < (d.paramNames t.nodes).length →
        ∃ v t', eval (k + 1) (some j) t = .ok v t' ∧
        t'.error ≠ none) ↔
        (d.paramNames t.nodes).length ≤ maxParams ∨ maxFuncs ≤ t.funcs.length)) ∧
    ∀ k c t n b u, Evaluates (fun _ => True) fuel (some root) s₂ (k + 1) (some c) t →
    t.nodes[c]? = some n → Enters k c t b u →
      ∃ f args x, findFunc t.funcs n.strVal = some f ∧ f.bodyNode = b ∧
      evalArgs (eval k) n.children t = .ok (some args) x ∧
        (∃ d, Defines t.nodes f d) ∧ ∀ d, Defines t.nodes f d →
          (BoundRight (d.paramNames t.nodes) args u ↔ (d.paramNames t.nodes).length ≤ maxParams ∧
            ∀ p ∈ (d.paramNames t.nodes).zip args, ∀ q ∈ (d.paramNames t.nodes).zip args, p.1 = q.1 →
            p.2 = q.2) := by
  constructor
  · intro k j t d hreach hd htype he
    have hrun : eval (k + 1) (some j) t = evalDef d t := by rw [eval_node hd he, evalNode, htype]
    rw [hrun]
    obtain ⟨hfull, heq⟩ | ⟨hroom, heq⟩ := evalDef_cases d t
    · rw [heq]
      exact ⟨fun _ => .inr hfull, fun _ _ => ⟨_, _, rfl, Option.some_ne_none _⟩⟩
    · rw [heq]
      constructor
      · intro h
        by_contra hno
        rw [not_or, Nat.not_le] at hno
        obtain ⟨v, t', hok, hne⟩ := h hno.1
        cases hok
        exact hne he
      · rintro (hfew | hfull)
        · exact fun hmany => absurd hmany (Nat.not_lt.mpr hfew)
        · exact absurd hfull (Nat.not_le.mpr hroom)
  · intro k c t n b u hreach hn henters
    have he : t.error = none := by
      obtain ⟨n', -, -, he, -⟩ := id henters
      exact he
    have hr := hreach.ready (ready_parsed hl hp) he
    obtain ⟨n', f, args, x, hn', -, -, hfunc, hlen, -, hargs, hbind, rfl⟩ := (enters_iff hr.depth).mp henters
    rw [hn] at hn'
    cases hn'
    have hdef := hreach.defined (shows_parsed hl hp).funcs f (List.mem_of_find?_eq_some hfunc)
    refine ⟨f, args, x, hfunc, rfl, hargs, hdef, fun d hd => ?_⟩
    -- the variables at the beginning of the call
    have hscope : ∀ v ∈ x.entered.vars, v.scope ≤ x.entered.callDepth := by
      obtain ⟨hstep, hx⟩ := stepped_evalArgs (stepped_eval k) hr.depth n.children he
      have hx := (hr.stepped hstep hargs).order (hx args x hargs)
      intro v hv
      exact Int.le_trans (hx.scope_le v hv) (Int.le_of_lt (Int.lt_succ x.callDepth))
    have hparams : f.params = (d.paramNames t.nodes).take maxParams := by
      rw [← hd.2.2]
      exact func_params d t.nodes
    rw [hparams] at hlen hbind
    exact boundRight_iff hscope ((evalArgs_length hargs).trans hlen) hbind

def pairSource : List UInt8 := ascii "def f(a, b):\n return a - b\nf(3, 4)\n"

/-- Every definition of the program has these two parameters, and the call these arguments. -/
private def callsPair (c : Nat) (t : Run) : Bool :=
  t.error = none && (t.nodes.all fun d => d.type ≠ .defNode || d.paramNames t.nodes = [ascii "a", ascii "b"]) &&
    (t.nodes[c]?.any fun n => n.type = .call &&
      match evalArgs (eval 9) n.children t with
      | .ok args _ => args = some [.int 3, .int 4]
      | .error _ _ => false) &&
    match eval 10 (some c) t with
    | .ok _ t' => t'.error = none
    | .error _ _ => false

private theorem pairSource_runs : (parsed pairSource).any (fun (_, root, s₂) =>
    (secondStatement 10 root s₂).any fun (c, t) => callsPair c t) = true := by
  decide +kernel

theorem arity_checked_iff_pair : ∃ s₁ s₂ root, gkLex pairSource (begun (freshState [])) = .ok () s₁ ∧
    gkParse s₁ = .ok root s₂ ∧
    ∃ c t b u, Evaluates (fun _ => True) 11 (some root) s₂ 10 (some c) t ∧ Enters 9 c t b u ∧
      findVar u.vars (ascii "a") = some ⟨ascii "a", .int 3, u.callDepth⟩ ∧
      findVar u.vars (ascii "b") = some ⟨ascii "b", .int 4, u.callDepth⟩ := by
  obtain ⟨⟨s₁, root, s₂⟩, hsome, hruns⟩ := (Option.any_eq_true _ _).mp pairSource_runs
  obtain ⟨hl, hp⟩ := parsed_eq_some hsome
  obtain ⟨⟨c, t⟩, hsecond, hpair⟩ := (Option.any_eq_true _ _).mp hruns
  have hreach := evaluates_second hsecond (shows_parsed hl hp).error
  simp only [callsPair, Bool.and_eq_true, decide_eq_true_eq] at hpair
  obtain ⟨⟨⟨he, hdefs⟩, hcall⟩, hrun⟩ := hpair
  obtain ⟨n, hn, hcall⟩ := (Option.any_eq_true _ _).mp hcall
  simp only [Bool.and_eq_true, decide_eq_true_eq] at hcall
  obtain ⟨htype, hargs⟩ := hcall
  cases heval : eval 10 (some c) t with
  | error e t' =>
    rw [heval] at hrun
    cases hrun
  | ok v t' =>
    simp only [heval, decide_eq_true_eq] at hrun
    rw [eval_node hn he, evalNode_call htype] at heval
    obtain ⟨f, args, x, u, w, u', hcalled, -⟩ := evalCall_ok heval hrun
    have henters := hcalled.enters (hreach.ready (ready_parsed hl hp) he).depth hn htype he
    obtain ⟨f', args', x', -, -, hgiven, ⟨d, hd⟩, hiff⟩ :=
      (arity_checked_iff hl hp).2 9 c t n f.bodyNode u hreach hn henters
    rw [hgiven] at hargs
    obtain rfl : args' = [.int 3, .int 4] := Option.some.inj (of_decide_eq_true hargs)
    have hnames : d.paramNames t.nodes = [ascii "a", ascii "b"] := by
      simpa [hd.2.1] using List.all_eq_true.mp hdefs d hd.1
    have hbound := (hiff d hd).mpr (by rw [hnames]; decide)
    rw [hnames] at hbound
    exact ⟨s₁, s₂, root, hl, hp, c, t, _, u, hreach, henters, hbound.2 _ (.head _),
      hbound.2 _ (.tail _ (.head _))⟩

/-- Nine parameters and eight arguments. -/
def nineSource : List UInt8 := ascii "def f(a, b, c, d, e, g, h, i, j):\n return 1\nf(1, 2, 3, 4, 5, 6, 7, 8)\n"

private def callsNine (c : Nat) (t : Run) : Bool :=
  t.error = none && (t.nodes.all fun d => d.type ≠ .defNode || (d.paramNames t.nodes).length = 9) &&
    (t.nodes[c]?.any fun n => n.type = .call && n.children.length = 8) &&
    match eval 10 (some c) t with
    | .ok _ t' => t'.error = none
    | .error _ _ => false

private theorem nineSource_runs : (parsed nineSource).any (fun (_, root, s₂) =>
    (secondStatement 10 root s₂).any fun (c, t) => callsNine c t) = true := by
  decide +kernel

/-- The definition is accepted, and the call evaluates its body. -/
theorem nine_parameters_shortened : ∃ s₁ s₂ root, gkLex nineSource (begun (freshState [])) = .ok () s₁ ∧
    gkParse s₁ = .ok root s₂ ∧
    ∃ k c t n b u f d, Evaluates (fun _ => True) 11 (some root) s₂ (k + 1) (some c) t ∧
    t.nodes[c]? = some n ∧ Enters k c t b u ∧
      findFunc t.funcs n.strVal = some f ∧ Defines t.nodes f d ∧ (d.paramNames t.nodes).length = 9 ∧
      n.children.length = 8 := by
  obtain ⟨⟨s₁, root, s₂⟩, hsome, hruns⟩ := (Option.any_eq_true _ _).mp nineSource_runs
  obtain ⟨hl, hp⟩ := parsed_eq_some hsome
  obtain ⟨⟨c, t⟩, hsecond, hnine⟩ := (Option.any_eq_true _ _).mp hruns
  have hreach := evaluates_second hsecond (shows_parsed hl hp).error
  simp only [callsNine, Bool.and_eq_true, decide_eq_true_eq] at hnine
  obtain ⟨⟨⟨he, hdefs⟩, hcall⟩, hrun⟩ := hnine
  obtain ⟨n, hn, hcall⟩ := (Option.any_eq_true _ _).mp hcall
  simp only [Bool.and_eq_true, decide_eq_true_eq] at hcall
  cases heval : eval 10 (some c) t with
  | error e t' =>
    rw [heval] at hrun
    cases hrun
  | ok v t' =>
    simp only [heval, decide_eq_true_eq] at hrun
    rw [eval_node hn he, evalNode_call hcall.1] at heval
    obtain ⟨f, args, x, u, w, u', hcalled, -⟩ := evalCall_ok heval hrun
    have hr := hreach.ready (ready_parsed hl hp) he
    have henters := hcalled.enters hr.depth hn hcall.1 he
    obtain ⟨d, hd⟩ := hreach.defined (shows_parsed hl hp).funcs f (List.mem_of_find?_eq_some hcalled.func)
    refine ⟨s₁, s₂, root, hl, hp, 9, c, t, n, _, u, f, d, hreach, hn, henters, hcalled.func, hd, ?_, hcall.2⟩
    have hlen := List.all_eq_true.mp hdefs d hd.1
    simpa [hd.2.1] using hlen

end GeckoOS.Gk
