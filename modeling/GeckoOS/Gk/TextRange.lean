import GeckoOS.Gk.ValueFlow

/-! Every string of a script stays inside its array. -/
namespace GeckoOS.Gk
open Lib

/-- The size of the arrays for the names of variables, functions and parameters. -/
def maxName : Nat := 64

/-- A string value leaves room for its NUL. -/
def Value.Short : Value → Prop
  | .str s => s.length < maxStr
  | _ => True

/-- Every string of a state ends with its NUL inside its array. -/
structure Terminated (m : GkState) : Prop where
  tokens : ∀ t ∈ m.tokens, t.strVal.length < maxStr
  nodes : ∀ n ∈ m.nodes, n.strVal.length < maxStr
  vars : ∀ v ∈ m.vars, v.name.length < maxName ∧ v.val.Short
  funcs : ∀ f ∈ m.funcs, f.name.length < maxName ∧ ∀ p ∈ f.params, p.length < maxName
  returnVal : m.returnVal.Short
  error : ∀ e ∈ m.error, e.text.length < maxStr

/-- In `t` the node `j` is a sum of the string `l` and the value `r`, which are known in `t₂`. -/
structure Concatenates (k j : Nat) (t : Run) (n : Node) (l : List UInt8) (r : Value) (t₂ : Run) : Prop where
  node : t.nodes[j]? = some n
  type : n.type = .binop
  op : n.op = .plus
  operands : ∃ t₁, eval k n.children[0]? t = .ok (.str l) t₁ ∧ t₁.error = none ∧
    eval k n.children[1]? t₁ = .ok r t₂ ∧ t₂.error = none

/-! The buffers of the lexer. -/

/-- The text of a string, or that of a name, which may only take a quarter of it. -/
def Fitting (isStr : Prop) [Decidable isStr] (text : List UInt8) : Prop :=
  text.length < if isStr then maxStr else maxName

theorem fitting_nil (isStr : Prop) [Decidable isStr] : Fitting isStr [] := by
  unfold Fitting
  split <;> decide

theorem strLoop_length (quote : UInt8) (src buf : List UInt8) (h : buf.length < maxStr - 1) :
    (strLoop quote src buf).1.length < maxStr := by
  have hadd : ∀ (buf : List UInt8) c, (buf ++ [c]).length = buf.length + 1 := fun _ _ => List.length_append
  fun_induction strLoop quote src buf with
  | case1 | case2 | case4 =>
    simp only
    omega
  | case3 buf | case5 _ _ _ buf | case7 _ _ _ buf =>
    simp only [hadd]
    omega
  | case6 _ _ _ _ _ ih =>
    refine ih ?_
    simp only [hadd]
    omega
  | case8 _ _ _ _ _ _ _ ih =>
    refine ih ?_
    simp only [hadd]
    omega

theorem lexeme_fitting {c : UInt8} {src : List UInt8} {line : Nat} {t : Token}
    (h : (lexeme c src).1.token line = some t) :
    Fitting (t.type = .str) t.strVal := by
  unfold lexeme at h
  split at h
  · cases h
  split at h
  · cases h
  split at h
  · cases h
    exact fitting_nil _
  split at h
  · cases h
    rw [Fitting, if_pos rfl]
    exact strLoop_length c src [] (by decide)
  split at h
  · cases h
    have hword : (((c :: src).take 63).takeWhile isAlnum).length < maxName :=
      Nat.lt_succ_of_le ((List.takeWhile_prefix _).length_le.trans (List.length_take_le 63 _))
    unfold Fitting
    split
    · exact Nat.lt_trans hword (by decide)
    · exact hword
  unfold operatorLexeme at h
  split at h
  · cases h
    exact fitting_nil _
  split at h
  · cases h
    exact fitting_nil _
  · cases h

theorem Lexical.fitting {t : Token} (h : Lexical t) : Fitting (t.type = .str) t.strVal := by
  obtain ⟨type, line, rfl⟩ | ⟨c, src, line, h⟩ := h
  · exact fitting_nil _
  · exact lexeme_fitting h

theorem Sourced.fitting {ts : List Token} {n : Node} (h : Sourced ts n) (hts : ∀ t ∈ ts, Lexical t) :
    Fitting (n.type = .str) n.strVal := by
  obtain h | ⟨t, ht, htext, htype⟩ := h.text
  · rw [h]
    exact fitting_nil _
  · have hfit := (hts t ht).fitting
    rw [Fitting, htext, htype] at hfit
    by_cases hstr : n.type = .str
    · rw [Fitting, if_pos hstr]
      simpa [hstr] using hfit
    · rw [Fitting, if_neg hstr]
      simpa [hstr] using hfit

theorem Fitting.lt {isStr : Prop} [Decidable isStr] {text : List UInt8} (h : Fitting isStr text) :
    text.length < maxStr := by
  unfold Fitting at h
  split at h
  · exact h
  · exact Nat.lt_trans h (by decide)

/-! The buffers of the interpreter. -/

theorem GkError.text_length (e : GkError) : e.text.length < maxStr := by
  have hliteral : ∀ l, (ascii (String.ofList l)).length = l.length :=
    fun l => by rw [ascii_ofList, List.length_map]
  cases e with
  | undefinedVariable name => exact Nat.lt_of_le_of_lt (List.length_take_le _ _) (by decide)
  | undefinedFunction name => exact Nat.lt_of_le_of_lt (List.length_take_le _ _) (by decide)
  | _ => exact (hliteral _).trans_lt (by decide)

theorem digitLoop_length (fuel n : Nat) (buf : List UInt8) :
    (digitLoop fuel n buf).length ≤ fuel + buf.length := by
  induction fuel generalizing n buf with
  | zero => exact Nat.le_add_left _ _
  | succ fuel ih =>
    rw [digitLoop]
    split
    · omega
    · have := ih (n / 10) (.ofNat (48 + n % 10) :: buf)
      rw [List.length_cons] at this
      omega

/-- At most ten digits and a sign. -/
theorem intToStr_lt (v : Int) : (intToStr v).length < maxStr := by
  have hdigits : ∀ n, (digitLoop 10 n []).length ≤ 10 := fun n => digitLoop_length 10 n []
  unfold maxStr intToStr
  split
  · decide
  · split
    · have := hdigits (wrap32 (-v)).toNat
      rw [List.length_cons]
      omega
    · have := hdigits v.toNat
      omega

theorem Value.Short.text {v : Value} (h : v.Short) : (valToStr v).length < maxStr := by
  cases v with
  | int v => exact intToStr_lt v
  | str s => exact h
  | bool b => cases b <;> decide
  | none => decide

/-- What is put together is cut off where the array ends. -/
theorem strcat_eq {l r : List UInt8} (h : l.length < maxStr) : strcat l r = (l ++ r).take (maxStr - 1) := by
  rw [strcat, List.take_append, List.take_of_length_le (Nat.le_sub_one_of_lt h)]

theorem strcat_length {l r : List UInt8} (h : l.length < maxStr) : (strcat l r).length < maxStr := by
  rw [strcat_eq h]
  exact Nat.lt_of_le_of_lt (List.length_take_le _ _) (by decide)

theorem strictOp_short {op : TokenType} {l r v : Value} {s s' : Run} (hl : l.Short)
    (h : strictOp op l r s = .ok v s') : v.Short := by
  have hdiv : ∀ {a b zero result}, divide a b zero result s = .ok v s' → v.Short := by
    intro a b zero result h
    rw [divide] at h
    split at h
    · cases h
      trivial
    · split at h
      · cases h
      · cases h
        trivial
  unfold strictOp at h
  split at h
  · cases h
    exact strcat_length hl
  · cases h
    trivial
  · cases h
    trivial
  · unfold integerOp at h
    split at h
    case h_4 | h_5 => exact hdiv h
    all_goals
      cases h
      trivial
  · cases h
    trivial

/-- Strings that fit, under names that fit. -/
def textDomain (nodes : List Node) : Domain := ⟨nodes, Value.Short, fun name => name.length < maxName⟩

theorem closed_textDomain {nodes : List Node} (hfit : ∀ n ∈ nodes, Fitting (n.type = .str) n.strVal)
    (hparams : ∀ n ∈ nodes, n.type = .defNode → ∀ c ∈ n.children.dropLast, ∃ x, nodes[c]? = some x ∧
      x.type = .var) :
    (textDomain nodes).Closed := by
  have hname : ∀ n ∈ nodes, n.type ≠ .str → n.strVal.length < maxName := by
    intro n hn hne
    have h := hfit n hn
    rwa [Fitting, if_neg hne] at h
  exact {
    none := trivial
    bool := fun _ => trivial
    int := fun _ _ _ => trivial
    str := fun n hn _ => (hfit n hn).lt
    name := fun n hn htype => hname n hn (by rcases htype with htype | htype <;> rw [htype] <;> decide)
    func := fun n hn htype => by
      refine ⟨hname n hn (by rw [htype]; decide), fun p hp => ?_⟩
      obtain ⟨c, hc, rfl⟩ := List.mem_map.mp hp
      obtain ⟨x, hx, hvar⟩ := hparams n hn htype c (List.mem_of_mem_take hc)
      have hx : (textDomain nodes).nodes[c]? = some x := hx
      rw [hx]
      exact hname x (List.mem_of_getElem? hx) (by rw [hvar]; decide)
    negative := fun _ => trivial
    strict := fun _ _ _ _ _ _ hl _ hrun => strictOp_short hl hrun
    line := fun _ => Nat.lt_of_le_of_lt (List.length_take_le _ _) (by decide)
    parsed := fun _ _ _ => trivial
    counter := fun _ _ _ _ _ => trivial }

/-! The states of a run. -/

section
variable {m : GkState} {src : List UInt8} {s₁ s₂ x : Run} {root fuel : Nat}

theorem terminated_gkInit (m : GkState) : Terminated (gkInit m) := by
  constructor <;> simp [gkInit, Value.Short]

/-- While lexing goes on, the tokens are the first of those that it ends with. -/
theorem terminated_lexing (h : Emits x (final (gkLex src (begun m)))) : Terminated x.toGkState := by
  have hframe := (gkLex_error src (begun m)).1
  have hsame := h.2.symm
  have hnodes : x.nodes = [] :=
    (congrArg (fun r : Run => r.nodes) hsame :).trans (congrArg (fun r : Run => r.nodes) hframe :)
  have hvars : x.vars = [] :=
    (congrArg (fun r : Run => r.vars) hsame :).trans (congrArg (fun r : Run => r.vars) hframe :)
  have hfuncs : x.funcs = [] :=
    (congrArg (fun r : Run => r.funcs) hsame :).trans (congrArg (fun r : Run => r.funcs) hframe :)
  have hval : x.returnVal = .none :=
    (congrArg (fun r : Run => r.returnVal) hsame :).trans (congrArg (fun r : Run => r.returnVal) hframe :)
  refine ⟨fun t ht => (gkLex_lexical src _ t (h.1.subset ht)).fitting.lt, ?_, ?_, ?_, ?_, fun e _ =>
    e.text_length⟩
  · simp [hnodes]
  · simp [hvars]
  · simp [hfuncs]
  · rw [hval]
    trivial

theorem terminated_lexed (src : List UInt8) : ∀ y ∈ (final (gkLex src (begun m))).moments, Terminated y := by
  have hpast : (final (gkLex src (begun m))).past = [gkInit m] :=
    (congrArg Run.past (gkLex_error src (begun m)).1 :)
  refine List.forall_mem_cons.mpr ⟨terminated_lexing (Emits.refl _), ?_⟩
  rw [hpast]
  exact List.forall_mem_singleton.mpr (terminated_gkInit m)

theorem fitting_drawn {ts : List Token} {y : GkState} (hts : ∀ t ∈ ts, Lexical t) (h : Drawn ts y) :
    ∀ n ∈ y.nodes, Fitting (n.type = .str) n.strVal := fun n hn => (h.nodes n hn).fitting hts

/-- The parser changes nothing but the nodes. -/
theorem Terminated.parsing {y z : GkState} (hy : Terminated y) (hp : Parsing y z)
    (hnodes : ∀ n ∈ z.nodes, n.strVal.length < maxStr) :
    Terminated z where
  tokens := by
    rw [hp.tokens]
    exact hy.tokens
  nodes := hnodes
  vars := by
    have hvars : z.vars = y.vars := (congrArg (fun r : GkState => r.vars) hp.frame :)
    rw [hvars]
    exact hy.vars
  funcs := by
    have hfuncs : z.funcs = y.funcs := (congrArg (fun r : GkState => r.funcs) hp.frame :)
    rw [hfuncs]
    exact hy.funcs
  returnVal := by
    have hval : z.returnVal = y.returnVal := (congrArg (fun r : GkState => r.returnVal) hp.frame :)
    rw [hval]
    exact hy.returnVal
  error := fun e _ => e.text_length

theorem terminated_parsing (hl : gkLex src (begun m) = .ok () s₁) :
    ∀ y ∈ (final (gkParse s₁)).moments, Terminated y := by
  have hlexed := terminated_lexed (m := m) src
  have hlexical := gkLex_lexical src (begun m)
  rw [hl] at hlexed hlexical
  have hw := walked_gkParse s₁
  have hd := gkParse_drawn s₁
  have hcleared : Terminated s₁.cleared.toGkState := by
    have h := hlexed _ List.mem_cons_self
    exact ⟨h.tokens, by simp [Run.cleared], h.vars, h.funcs, h.returnVal, h.error⟩
  have hafter : ∀ y, Parsing s₁.cleared.toGkState y → Drawn s₁.tokens y → Terminated y := fun y hp hdrawn =>
    hcleared.parsing hp fun n hn => (fitting_drawn hlexical hdrawn n hn).lt
  refine List.forall_mem_cons.mpr ⟨hafter _ hw.state hd.now, fun y hy => ?_⟩
  obtain hy' | ⟨hparsing, -⟩ := hw.past y hy
  · exact hlexed y hy'
  · obtain hy' | hdrawn := hd.since y hy
    · exact hlexed y hy'
    · exact hafter y hparsing hdrawn

theorem closed_parsed (hl : gkLex src (begun m) = .ok () s₁) (hp : gkParse s₁ = .ok root s₂) :
    (textDomain s₂.nodes).Closed := by
  have hlexical := gkLex_lexical src (begun m)
  rw [hl] at hlexical
  have hd := gkParse_drawn s₁
  rw [hp] at hd
  exact closed_textDomain (fitting_drawn hlexical hd.now) fun n hn htype => gkParse_params hp hn htype

theorem held_parsed (hl : gkLex src (begun m) = .ok () s₁) (hp : gkParse s₁ = .ok root s₂) :
    Held (textDomain s₂.nodes).Within s₂.past s₂ := by
  have hparsed := terminated_parsing hl
  rw [hp] at hparsed
  have h := hparsed _ List.mem_cons_self
  exact .refl ⟨rfl, h.vars, h.funcs, h.returnVal⟩

theorem Step.tokens_eq {y z : GkState} (h : Step y z) : z.tokens = y.tokens := by
  cases h <;> rfl

theorem terminated_evaluating (hl : gkLex src (begun m) = .ok () s₁) (hp : gkParse s₁ = .ok root s₂) :
    ∀ y ∈ (final (eval fuel (some root) s₂)).moments, Terminated y := by
  have hparsed := terminated_parsing hl
  rw [hp] at hparsed
  have hs₂ : Terminated s₂.toGkState := hparsed _ List.mem_cons_self
  have hheld := (within_eval (closed_parsed hl hp) fuel (some root) s₂ (held_parsed hl hp)).1
  have hsteps := (stepped_eval fuel (some root) s₂ (ready_parsed hl hp).depth).steps
  intro y hy
  obtain hy' | htokens := hsteps.moments (P := fun z => z.tokens = s₂.tokens)
    (fun _ _ hstep _ h => hstep.tokens_eq.trans h) rfl y hy
  · exact hparsed y (List.mem_cons_of_mem _ hy')
  obtain hy' | hwithin := hheld.moments y hy
  · exact hparsed y (List.mem_cons_of_mem _ hy')
  refine ⟨?_, ?_, hwithin.vars, hwithin.funcs, hwithin.returnVal, fun e _ => e.text_length⟩
  · rw [htokens]
    exact hs₂.tokens
  · rw [hwithin.nodes_eq]
    exact hs₂.nodes

theorem Concatenates.apply {k j : Nat} {t t₂ : Run} {n : Node} {l : List UInt8} {r : Value}
    (h : Concatenates k j t n l r t₂)
    (hl : l.length < maxStr) : eval (k + 1) (some j) t =
      .ok (.str ((l ++ valToStr r).take (maxStr - 1))) t₂ := by
  obtain ⟨t₁, hleft, he₁, hright, he₂⟩ := h.operands
  rw [eval_strict h.node h.type (by rw [h.op]; decide) (by rw [h.op]; decide) hleft he₁ hright he₂,
    h.op, ← strcat_eq hl]
  rfl

end

/-- In every state of lexing, parsing and evaluating a program, each string ends
in its array; so does each value that an evaluation comes to, and its text; and
the sum of a string and a value is their texts behind each other, up to the 255th character. -/
theorem strings_terminated (m : GkState) (fuel : Nat) (src : List UInt8) :
    (∀ x : Run, Emits x (final (gkLex src (begun m))) → Terminated x.toGkState) ∧
    (∀ x ∈ (final (gkRun fuel src (gkInit m).start)).moments, Terminated x) ∧
    ∀ s₁ s₂ root, gkLex src (begun m) = .ok () s₁ → gkParse s₁ = .ok root s₂ →
      (∀ k i t v t', Evaluates (fun _ => True) fuel (some root) s₂ k i t → eval k i t = .ok v t' →
        v.Short ∧ (valToStr v).length < maxStr) ∧
      ∀ k j t n l r t₂, Evaluates (fun _ => True) fuel (some root) s₂ (k + 1) (some j) t →
      Concatenates k j t n l r t₂ →
        eval (k + 1) (some j) t = .ok (.str ((l ++ valToStr r).take (maxStr - 1))) t₂ := by
  refine ⟨fun x hx => terminated_lexing hx, ?_, fun s₁ s₂ root hl hp => ?_⟩
  · exact gkRun_moments (fun x text hx =>
      ⟨hx.tokens, hx.nodes, hx.vars, hx.funcs, hx.returnVal, hx.error⟩) (terminated_lexed src)
      (fun s₁ hl => terminated_parsing hl) fun s₁ s₂ root hl hp => terminated_evaluating hl hp
  have hclosed := closed_parsed hl hp
  have hheld := held_parsed hl hp
  constructor
  · intro k i t v t' hreach hrun
    have hv : v.Short := (within_eval hclosed k i t (hreach.within hclosed hheld)).2 v t' hrun
    exact ⟨hv, hv.text⟩
  · intro k j t n l r t₂ hreach hsum
    obtain ⟨t₁, hleft, -⟩ := hsum.operands
    exact hsum.apply ((within_eval hclosed k _ t (hreach.within hclosed hheld)).2 _ _ hleft)

end GeckoOS.Gk
