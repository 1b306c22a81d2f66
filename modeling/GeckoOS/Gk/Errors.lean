import GeckoOS.Gk.InterpSteps
import GeckoOS.Gk.ParserWalk

/-! Behind the first error of an evaluation only the open calls are left, and
`gk_run` reports whether there was an error. -/
namespace GeckoOS.Gk
open Lib

/-- From a state with an error to a later one: nothing happens but that scopes
which are being left lose their variables. -/
structure Frozen (m m' : GkState) : Prop where
  error : m'.error = m.error
  output : m'.output = m.output
  input : m'.input = m.input
  funcs : m'.funcs = m.funcs
  depth : m'.callDepth ≤ m.callDepth
  vars : ∃ dropped, m.vars = m'.vars ++ dropped ∧ ∀ v ∈ dropped, 0 < v.scope ∧ m'.callDepth ≤ v.scope

variable {m m' m'' : GkState} {s s' : Run} {α β : Type} {p : GkM α} {k : α → GkM β}

theorem Frozen.of_vars_eq (herror : m'.error = m.error) (houtput : m'.output = m.output)
    (hinput : m'.input = m.input)
    (hfuncs : m'.funcs = m.funcs) (hdepth : m'.callDepth ≤ m.callDepth)
    (hvars : m'.vars = m.vars) : Frozen m m' :=
  ⟨herror, houtput, hinput, hfuncs, hdepth, [], by simp [hvars]⟩

theorem Frozen.trans (h : Frozen m m') (h' : Frozen m' m'') : Frozen m m'' := by
  obtain ⟨d, hv, hd⟩ := h.vars
  obtain ⟨d', hv', hd'⟩ := h'.vars
  refine ⟨h'.error.trans h.error, h'.output.trans h.output, h'.input.trans h.input, h'.funcs.trans h.funcs,
    h'.depth.trans h.depth, d' ++ d, ?_, fun v hm => ?_⟩
  · rw [hv, hv', List.append_assoc]
  · obtain hm | hm := List.mem_append.mp hm
    · exact hd' v hm
    · exact ⟨(hd v hm).1, h'.depth.trans (hd v hm).2⟩

/-- The changes that are still made after an error. -/
theorem Step.frozen (h : Step m m') (he : m.error ≠ none) : Frozen m m' := by
  cases h with
  | print _ h => exact absurd h he
  | read h => exact absurd h he
  | fail _ h => exact absurd h he
  | assign h => exact absurd h he
  | declare _ h => exact absurd h he
  | define _ h => exact absurd h he
  | enter h => exact absurd h he
  | jump => exact .of_vars_eq rfl rfl rfl rfl (Int.le_refl _) rfl
  | leave => exact .of_vars_eq rfl rfl rfl rfl (Int.sub_le_self _ (by decide)) rfl
  | pop hpos =>
    refine ⟨rfl, rfl, rfl, rfl, Int.le_refl _, m.vars.rtakeWhile fun v =>
      m.callDepth ≤ v.scope, ?_, fun v hv => ?_⟩
    · exact List.rdropWhile_append_rtakeWhile.symm
    · have hle : m.callDepth ≤ v.scope := by simpa using List.mem_rtakeWhile_imp hv
      exact ⟨Int.lt_of_lt_of_le hpos hle, hle⟩

/-- If there was no error before, then the moments behind the first error of an
evaluation are frozen, and the evaluation comes to its end after it. -/
theorem eval_frozen (fuel : Nat) (i : Option Nat) (hd : 0 ≤ s.callDepth)
    (hs : ∀ m ∈ s.moments, m.error = none) :
    ((final (eval fuel i s)).moments.Pairwise fun later earlier =>
      earlier.error ≠ none → Frozen earlier later) ∧
    ∀ m ∈ (final (eval fuel i s)).moments, m.error ≠ none → ∃ v s', eval fuel i s = .ok v s' ∧
    s'.error = m.error := by
  have hst := stepped_eval fuel i s hd
  have hpair : (final (eval fuel i s)).moments.Pairwise fun later earlier =>
    earlier.error ≠ none → Frozen earlier later := by
    refine hst.steps.pairwise (R := fun m m' => m.error ≠ none → Frozen m m') (fun m m' => Step.frozen) ?_ ?_
    · intro m m' m'' h h' he
      have hf := h he
      exact hf.trans (h' (by rw [hf.error]; exact he))
    · exact List.pairwise_of_forall_mem_list fun m' _ m hm he => absurd (hs m hm) he
  refine ⟨hpair, fun m hm he => ?_⟩
  have hlast : (final (eval fuel i s)).error = m.error := by
    obtain rfl | hm := List.mem_cons.mp hm
    · rfl
    · exact ((List.pairwise_cons.mp hpair).1 m hm he).error
  cases hr : eval fuel i s with
  | ok v s' =>
    rw [hr] at hlast
    exact ⟨v, s', rfl, hlast⟩
  | error e s' =>
    rw [hr] at hlast
    exact absurd (hlast.symm.trans (hst.stop e s' hr)) he

/-! Lexing sets an error exactly if it fails: an operator that finds no room is
passed over, but then there is no room for the EOF either. -/

/-- Lexing from `s` with the outcome `r`. -/
structure Lexed (s : Run) (r : EStateM.Result Stop Run α) : Prop where
  emits : Emits s (final r)
  ok : ∀ a s', r = .ok a s' → s'.error = s.error ∨ maxTokens ≤ s'.tokens.length
  failed : ∀ s', r = .error .failed s' → s'.error ≠ none

namespace Lexed

protected theorem pure (a : α) (s : Run) : Lexed s ((pure a : GkM α) s) :=
  ⟨.refl s, fun _ _ h => by cases h; exact .inl rfl, fun _ h => by cases h⟩

theorem throw {e : Stop} (he : e ≠ .failed) (s : Run) : Lexed s ((throw e : GkM α) s) :=
  ⟨.refl s, fun _ _ h => (by cases h), fun _ h => by cases h; exact absurd rfl he⟩

theorem fail (e : GkError) (s : Run) : Lexed s ((fail e : GkM α) s) :=
  ⟨⟨List.prefix_refl _, rfl⟩, fun _ _ h => (by cases h), fun _ h => by cases h; exact Option.some_ne_none e⟩

protected theorem bind (hp : Lexed s (p s)) (hk : ∀ a s', Lexed s' (k a s')) : Lexed s ((p >>= k) s) := by
  cases h : p s with
  | error e s' =>
    rw [bind_error h]
    rw [h] at hp
    exact ⟨hp.emits, fun _ _ he => (by cases he), fun s'' he => hp.failed s'' (by cases he; rfl)⟩
  | ok a s' =>
    rw [bind_ok h]
    rw [h] at hp
    have hk := hk a s'
    refine ⟨hp.emits.trans hk.emits, fun b s'' h' => ?_, hk.failed⟩
    obtain he' | hfull := hk.ok b s'' h'
    · obtain he | hfull := hp.ok a s' rfl
      · exact .inl (he'.trans he)
      · -- the array stays full
        have hgrow := hk.emits.1.length_le
        rw [h'] at hgrow
        exact .inr (hfull.trans hgrow)
    · exact .inr hfull

end Lexed

theorem lexed_orFail (t : Token) (s : Run) : Lexed s (orFail (emitToken t) s) := by
  have hemits := emits_orFail t s
  rw [orFail_emit] at hemits ⊢
  split at hemits
  · next hfull =>
    rw [if_pos hfull]
    exact ⟨hemits, fun _ _ h => (by cases h), fun _ h => by cases h; exact Option.some_ne_none _⟩
  · next hroom =>
    rw [if_neg hroom]
    exact ⟨hemits, fun _ _ h => by cases h; exact .inl rfl, fun _ h => by cases h⟩

theorem lexed_emitLexeme (line : Nat) (l : Lexeme) (s : Run) : Lexed s (emitLexeme line l s) := by
  cases l with
  | nothing => exact .pure _ _
  | int v => exact lexed_orFail _ _
  | text t str => exact lexed_orFail _ _
  | operator t =>
    refine ⟨emits_emitLexeme line (.operator t) s, fun a s' h => ?_, fun s' h => ?_⟩
    all_goals
      by_cases hfull : maxTokens ≤ s.tokens.length
      · have he : emit t line s = .ok false { s with error := some .tooManyTokens } := if_pos hfull
        rw [emitLexeme, bind_ok he] at h
        cases h
        try exact .inr hfull
      · have he : emit t line s = .ok true { s with tokens := s.tokens ++ [⟨t, 0, [], line⟩] } := if_neg hfull
        rw [emitLexeme, bind_ok he] at h
        cases h
        try exact .inl rfl
  | unknown => exact .fail _ _

theorem lexed_tokenLoop (line fuel : Nat) (src : List UInt8) (s : Run) :
    Lexed s (tokenLoop line fuel src s) := by
  fun_induction tokenLoop line fuel src generalizing s with
  | case1 => exact .pure _ _
  | case2 => exact .throw (by decide) _
  | case3 => exact .pure _ _
  | case4 _ _ _ _ ih => exact .bind (lexed_emitLexeme line _ s) fun _ s' => ih s'

theorem lexed_popIndents (indent line : Nat) (stack : List Nat) (s : Run) :
    Lexed s (popIndents indent line stack s) := by
  induction stack generalizing s with
  | nil => exact .pure _ _
  | cons top stack ih =>
    rw [popIndents]
    split
    · exact .bind (lexed_orFail _ _) fun _ s' => ih s'
    · exact .pure _ _

theorem lexed_setIndent (indent line : Nat) (stack : List Nat) (s : Run) :
    Lexed s (setIndent indent line stack s) := by
  rw [setIndent]
  split
  · split
    · rw [bind_error (throw_apply _ _)]
      exact .throw (by decide) _
    · exact .bind (lexed_orFail _ _) fun _ _ => .pure _ _
  · exact lexed_popIndents _ _ _ _

theorem lexed_closeIndents (line : Nat) (stack : List Nat) (s : Run) : Lexed s (closeIndents line stack s) := by
  fun_induction closeIndents line stack generalizing s with
  | case1 | case2 => exact .pure _ _
  | case3 _ _ _ ih => exact .bind (lexed_orFail _ _) fun _ s' => ih s'

theorem lexed_lineLoop (fuel line : Nat) (stack : List Nat) (src : List UInt8) (s : Run) :
    Lexed s (lineLoop fuel line stack src s) := by
  fun_induction lineLoop fuel line stack src generalizing s with
  | case1 => exact .bind (lexed_closeIndents _ _ _) fun _ _ => lexed_orFail _ _
  | case2 => exact .throw (by decide) _
  | case3 _ _ _ _ _ _ _ _ _ _ _ ih => exact ih s
  | case4 _ _ _ _ _ _ _ _ _ _ ih =>
    exact .bind (lexed_setIndent _ _ _ _) fun _ _ => .bind (lexed_tokenLoop _ _ _ _) fun _ _ =>
      .bind (lexed_orFail _ _) fun _ s' => ih _ _ s'

/-- As long as there is room, no error has been set. -/
theorem Lexed.room {a : α} (h : Lexed s (p s)) (hp : p s = .ok a s') (hroom : s'.tokens.length < maxTokens) :
    s'.error = s.error ∧ s.tokens.length < maxTokens := by
  have hgrow := h.emits.1.length_le
  rw [hp] at hgrow
  refine ⟨(h.ok a s' hp).resolve_right (Nat.not_le_of_lt hroom), Nat.lt_of_le_of_lt hgrow hroom⟩

theorem lineLoop_ok {fuel line : Nat} {stack : List Nat} {src : List UInt8}
    (h : lineLoop fuel line stack src s = .ok () s') :
    s'.error = s.error ∧ s.tokens.length < maxTokens := by
  fun_induction lineLoop fuel line stack src generalizing s with
  | case1 fuel line stack =>
    obtain ⟨u, s₁, h₁, h⟩ := bind_eq_ok h
    obtain ⟨hroom, rfl⟩ := orFail_emit_eq_ok h
    obtain ⟨he, hroom'⟩ := (lexed_closeIndents line stack s).room h₁ hroom
    exact ⟨he, hroom'⟩
  | case2 => cases h
  | case3 =>
    next ih => exact ih h
  | case4 =>
    rename_i ih
    obtain ⟨stack', s₁, h₁, h⟩ := bind_eq_ok h
    obtain ⟨src', s₂, h₂, h⟩ := bind_eq_ok h
    obtain ⟨u, s₃, h₃, h⟩ := bind_eq_ok h
    obtain ⟨he, hroom⟩ := ih _ _ h
    obtain ⟨he₃, hroom⟩ := (lexed_orFail _ s₂).room h₃ hroom
    obtain ⟨he₂, hroom⟩ := (lexed_tokenLoop _ _ _ s₁).room h₂ hroom
    obtain ⟨he₁, hroom⟩ := (lexed_setIndent _ _ _ s).room h₁ hroom
    exact ⟨he.trans (he₃.trans (he₂.trans he₁)), hroom⟩

/-- Lexing only touches the tokens, the cursor and the error, and the error
exactly if it fails. -/
theorem gkLex_error (src : List UInt8) (s : Run) :
    { final (gkLex src s) with tokens := s.tokens, tokPos := s.tokPos, error := s.error } = s ∧
    (∀ s', gkLex src s = .ok () s' → s'.error = s.error) ∧ ∀ s', gkLex src s = .error .failed s' →
    s'.error ≠ none := by
  have hl := lexed_lineLoop (src.length + 1) 1 [0] src { s with tokens := [], tokPos := 0 }
  have hrun : gkLex src s = lineLoop (src.length + 1) 1 [0] src { s with tokens := [], tokPos := 0 } := rfl
  rw [hrun]
  refine ⟨?_, fun s' h => (lineLoop_ok h).1, hl.failed⟩
  have hframe := hl.emits.2
  exact (congrArg (fun x : Run => { x with tokens := s.tokens, tokPos := s.tokPos }) hframe :)

/-- The first states of `gk_run` after `gk_init`. -/
def begun (m : GkState) : Run := ⟨gkInit m, [gkInit m]⟩

theorem reset_start (m : GkState) :
    update (fun s => { s with error := none, returning := false, breaking := false, continuing := false })
      (gkInit m).start = .ok () (begun m) := rfl

/-- The states in which lexing, parsing and evaluating end, as far as the run gets. -/
def phases (fuel : Nat) (src : List UInt8) (s : Run) : List Run :=
  match gkLex src s with
  | .error _ s₁ => [s₁]
  | .ok _ s₁ =>
    match gkParse s₁ with
    | .error _ s₂ => [s₁, s₂]
    | .ok root s₂ => [s₁, s₂, final (eval fuel (some root) s₂)]

theorem attempt_ok {a : α} (h : p s = .ok a s') : attempt p s = .ok (some a) s' := by
  rw [attempt, h]

theorem attempt_failed (h : p s = .error .failed s') : attempt p s = .ok none s' := by
  rw [attempt, h]

theorem attempt_stop {e : Stop} (he : e ≠ .failed) (h : p s = .error e s') : attempt p s = .error e s' := by
  rw [attempt, h]
  cases e with
  | failed => exact absurd rfl he
  | overrun | divideError | outOfFuel => rfl

section
variable {fuel root : Nat} {src : List UInt8} {s₁ s₂ s₃ : Run} {b : Bool} {v : Value} {e : Stop}

/-- What holds in all states of lexing, parsing and evaluating, and does not
depend on the output, holds in the whole run. -/
theorem gkRun_moments {P : GkState → Prop} (hprint : ∀ x text, P x → P { x with output := x.output ++ text })
    (hlex : ∀ x ∈ (final (gkLex src (begun m))).moments, P x)
    (hparse : ∀ s₁, gkLex src (begun m) = .ok () s₁ → ∀ x ∈ (final (gkParse s₁)).moments, P x)
    (heval : ∀ s₁ s₂ root, gkLex src (begun m) = .ok () s₁ → gkParse s₁ = .ok root s₂ →
      ∀ x ∈ (final (eval fuel (some root) s₂)).moments, P x) :
    ∀ x ∈ (final (gkRun fuel src (gkInit m).start)).moments, P x := by
  have hreport : ∀ {r : Run} phase, (∀ x ∈ r.moments, P x) →
    ∀ x ∈ (final (report phase r)).moments, P x := fun phase hr =>
    List.forall_mem_cons.mpr ⟨hprint _ _ (hr _ List.mem_cons_self), hr⟩
  have hrun : gkRun fuel src (gkInit m).start = _ := bind_ok (reset_start m)
  rw [hrun]
  cases hl : gkLex src (begun m) with
  | error e s₁ =>
    rw [hl] at hlex
    by_cases he : e = .failed
    · subst he
      rw [bind_ok (attempt_failed hl)]
      exact hreport _ hlex
    · rw [bind_error (attempt_stop he hl)]
      exact hlex
  | ok u s₁ =>
    have hparse := hparse s₁ hl
    rw [bind_ok (attempt_ok hl)]
    simp only
    cases hp : gkParse s₁ with
    | error e s₂ =>
      rw [hp] at hparse
      by_cases he : e = .failed
      · subst he
        rw [bind_ok (attempt_failed hp)]
        exact hreport _ hparse
      · rw [bind_error (attempt_stop he hp)]
        exact hparse
    | ok root s₂ =>
      have heval := heval s₁ s₂ root hl hp
      rw [hp] at hparse
      rw [bind_ok (attempt_ok hp)]
      simp only
      rw [bind_ok (get_apply s₂)]
      split
      · exact hreport _ hparse
      · refine final_bind (Q := fun r : Run => ∀ x ∈ r.moments, P x) (fun e s₃ hs₃ => ?_) fun v s₃ hs₃ => ?_
        · rwa [hs₃] at heval
        rw [hs₃] at heval
        rw [bind_ok (get_apply s₃)]
        split
        · exact hreport _ heval
        · exact heval

/-- No phase in front of the evaluation leaves an error without failing. -/
theorem lexed_moments (hl : gkLex src (begun m) = .ok () s₁) :
    s₁.callDepth = 0 ∧ ∀ x ∈ s₁.moments, x.error = none := by
  obtain ⟨hframe, hok, -⟩ := gkLex_error src (begun m)
  rw [hl] at hframe
  have hpast : s₁.past = [gkInit m] := (congrArg Run.past hframe :)
  refine ⟨(congrArg (fun x : Run => x.callDepth) hframe :), fun x hx => ?_⟩
  obtain rfl | hx := List.mem_cons.mp hx
  · exact hok s₁ hl
  · rw [hpast, List.mem_singleton] at hx
    rw [hx]
    rfl

theorem parsed_moments (hl : gkLex src (begun m) = .ok () s₁) (hp : gkParse s₁ = .ok root s₂) :
    s₂.callDepth = 0 ∧ ∀ x ∈ s₂.moments, x.error = none := by
  obtain ⟨hdepth, hs⟩ := lexed_moments hl
  have hw := walked_gkParse s₁
  rw [hp] at hw
  have he : s₁.error = none := hs _ List.mem_cons_self
  refine ⟨(congrArg GkState.callDepth hw.state.frame :).trans hdepth, fun x hx => ?_⟩
  obtain rfl | hx := List.mem_cons.mp hx
  · exact (hw.ok root s₂ rfl).trans he
  · obtain hx | ⟨-, hx⟩ := hw.past x hx
    · exact hs x hx
    · exact hx.trans he

theorem gkRun_parsed (hl : gkLex src (begun m) = .ok () s₁) (hp : gkParse s₁ = .ok root s₂) :
    gkRun fuel src (gkInit m).start = (do
      let _ ← eval fuel (some root)
      if (← get).error.isSome then report (ascii "gk runtime error: ") else return true : GkM Bool) s₂ := by
  have he : s₂.error = none := (parsed_moments hl hp).2 _ List.mem_cons_self
  have hrun : gkRun fuel src (gkInit m).start = _ := bind_ok (reset_start m)
  rw [hrun, bind_ok (attempt_ok hl)]
  simp only
  rw [bind_ok (attempt_ok hp)]
  simp only
  rw [bind_ok (get_apply s₂), he]
  rfl

/-- A phase in front of the evaluation that ends early has set an error, if the
run has a result. -/
theorem gkRun_lex_error (hl : gkLex src (begun m) = .error e s₁)
    (h : gkRun fuel src (gkInit m).start = .ok b s') :
    b = false ∧ s₁.error ≠ none := by
  have hrun : gkRun fuel src (gkInit m).start = _ := bind_ok (reset_start m)
  rw [hrun] at h
  by_cases he : e = .failed
  · subst he
    rw [bind_ok (attempt_failed hl)] at h
    cases h
    exact ⟨rfl, (gkLex_error src (begun m)).2.2 s₁ hl⟩
  · rw [bind_error (attempt_stop he hl)] at h
    cases h

theorem gkRun_parse_error (hl : gkLex src (begun m) = .ok () s₁) (hp : gkParse s₁ = .error e s₂)
    (h : gkRun fuel src (gkInit m).start = .ok b s') : b = false ∧ s₂.error ≠ none := by
  have hrun : gkRun fuel src (gkInit m).start = _ := bind_ok (reset_start m)
  rw [hrun, bind_ok (attempt_ok hl)] at h
  simp only at h
  by_cases he : e = .failed
  · subst he
    rw [bind_ok (attempt_failed hp)] at h
    cases h
    exact ⟨rfl, (walked_gkParse s₁).failed s₂ hp⟩
  · rw [bind_error (attempt_stop he hp)] at h
    cases h

end

/-- From the first error of the evaluation on nothing is printed or read,
no variable or function is added or changed, and only scopes that are being
left lose their variables; the run ends with this error and the result false.
A run ends with the result true exactly if no phase has set an error. -/
theorem gkRun_errors (m : GkState) (fuel : Nat) (src : List UInt8) :
    (∀ s₁ s₂ root, gkLex src (begun m) = .ok () s₁ → gkParse s₁ = .ok root s₂ →
      ((final (eval fuel (some root) s₂)).moments.Pairwise fun later earlier =>
        earlier.error ≠ none → Frozen earlier later) ∧
      ∀ x ∈ (final (eval fuel (some root) s₂)).moments, x.error ≠ none →
        ∃ s', gkRun fuel src (gkInit m).start = .ok false s' ∧ s'.error = x.error) ∧
    ∀ b s', gkRun fuel src (gkInit m).start = .ok b s' →
      (b = true ↔ ∀ r ∈ phases fuel src (begun m), ∀ x ∈ r.moments, x.error = none) := by
  refine ⟨fun s₁ s₂ root hl hp => ?_, fun b s' h => ?_⟩
  · obtain ⟨hd, hs⟩ := parsed_moments hl hp
    obtain ⟨hpair, hend⟩ := eval_frozen fuel (some root) (Int.le_of_eq hd.symm) hs
    refine ⟨hpair, fun x hx he => ?_⟩
    obtain ⟨v, s₃, hv, he₃⟩ := hend x hx he
    obtain ⟨e, hx⟩ := Option.ne_none_iff_exists'.mp he
    rw [gkRun_parsed hl hp, bind_ok hv, bind_ok (get_apply s₃), he₃, hx]
    exact ⟨_, rfl, he₃.trans hx⟩
  · have herror : ∀ {r : Run}, r ∈ phases fuel src (begun m) → r.error ≠ none → b = false →
        (b = true ↔ ∀ r ∈ phases fuel src (begun m), ∀ x ∈ r.moments, x.error = none) := by
      rintro r hr he rfl
      exact ⟨fun hb => (by cases hb), fun hall => absurd (hall r hr _ List.mem_cons_self) he⟩
    cases hl : gkLex src (begun m) with
    | error e s₁ =>
      obtain ⟨hb, he⟩ := gkRun_lex_error hl h
      exact herror (by simp [phases, hl]) he hb
    | ok u s₁ =>
      cases hp : gkParse s₁ with
      | error e s₂ =>
        obtain ⟨hb, he⟩ := gkRun_parse_error hl hp h
        exact herror (r := s₂) (by simp [phases, hl, hp]) he hb
      | ok root s₂ =>
        obtain ⟨hd, hs⟩ := parsed_moments hl hp
        rw [gkRun_parsed hl hp] at h
        obtain ⟨v, s₃, hv, h⟩ := bind_eq_ok h
        rw [bind_ok (get_apply s₃)] at h
        have hphases : phases fuel src (begun m) = [s₁, s₂, s₃] := by simp [phases, hl, hp, hv]
        cases he : s₃.error with
        | some e =>
          rw [he] at h
          cases h
          exact herror (r := s₃) (by simp [hphases]) (by simp [he]) rfl
        | none =>
          rw [he] at h
          cases h
          refine ⟨fun _ r hr x hx => ?_, fun _ => rfl⟩
          rw [hphases] at hr
          obtain rfl | rfl | rfl : r = s₁ ∨ r = s₂ ∨ r = s' := by simpa using hr
          · exact (lexed_moments hl).2 x hx
          · exact hs x hx
          · by_contra hx'
            have hend := (eval_frozen fuel (some root) (Int.le_of_eq hd.symm) hs).2 x (by rw [hv]; exact hx) hx'
            obtain ⟨v', s₄, hv', he'⟩ := hend
            rw [hv] at hv'
            cases hv'
            exact hx' (he'.symm.trans he)

end GeckoOS.Gk
