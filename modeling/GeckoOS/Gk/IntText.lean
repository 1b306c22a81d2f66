import GeckoOS.Gk.ExprMeaning
import GeckoOS.Gk.LexRoundTrip

/-! Integers as text: `int_to_str` writes the digits from the back, and `int()`
reads them again. -/
namespace GeckoOS.Gk
open Lib

/-- The digits of a number in the standard notation. -/
def digitText (n : Nat) : List UInt8 := ascii (toString n)

variable {n : Nat}

private theorem byte_digitChar (h : n < 10) : UInt8.ofNat (Nat.digitChar n).toNat = UInt8.ofNat (48 + n) := by
  rw [Nat.toNat_digitChar_of_lt_ten h]

private theorem digitText_eq (n : Nat) : digitText n = (Nat.toDigits 10 n).map fun c => .ofNat c.toNat := by
  rw [digitText, ascii]
  exact congrArg _ Nat.toList_repr

/-- The last digit comes off the end. -/
theorem digitText_cases (n : Nat) :
    digitText n = (if n < 10 then [] else digitText (n / 10)) ++ [UInt8.ofNat (48 + n % 10)] := by
  rw [digitText_eq, Nat.toDigits_eq_if (by decide)]
  split
  · next h => rw [List.map_singleton, byte_digitChar h, Nat.mod_eq_of_lt h, List.nil_append]
  · rw [List.map_append, List.map_singleton, byte_digitChar (Nat.mod_lt _ (by decide)), digitText_eq]

private theorem digitLoop_zero (fuel : Nat) (buf : List UInt8) : digitLoop fuel 0 buf = buf := by
  cases fuel <;> rfl

/-- The loop of `int_to_str` writes the standard notation. -/
theorem digitLoop_eq {fuel : Nat} (hn : n ≠ 0) (hlt : n < 10^fuel) (buf : List UInt8) :
    digitLoop fuel n buf = digitText n ++ buf := by
  induction fuel generalizing n buf with
  | zero => omega
  | succ fuel ih =>
    rw [digitLoop, if_neg hn, digitText_cases]
    split
    · next h =>
      rw [Nat.div_eq_of_lt h, digitLoop_zero]
      rfl
    · next h =>
      rw [ih (by omega) (by rw [Nat.pow_succ] at hlt; omega), List.append_assoc]
      rfl

theorem digitText_digits (n : Nat) : (∀ c ∈ digitText n, isDigit c = true) ∧ decimal (digitText n) = n := by
  have hdigit : ∀ d < 10, isDigit (UInt8.ofNat (48 + d)) = true ∧
    (UInt8.ofNat (48 + d)).toNat = 48 + d := by decide
  induction n using Nat.strongRecOn with
  | ind n ih =>
    obtain ⟨hlast, hval⟩ := hdigit (n % 10) (Nat.mod_lt _ (by decide))
    rw [digitText_cases]
    split
    · next h =>
      refine ⟨by simpa using hlast, ?_⟩
      rw [List.nil_append, decimal, List.foldl_cons, List.foldl_nil, hval, Nat.mod_eq_of_lt h]
      omega
    · next h =>
      obtain ⟨hall, hdec⟩ := ih (n / 10) (by omega)
      refine ⟨fun c hc => ?_, ?_⟩
      · rcases List.mem_append.mp hc with hc | hc
        · exact hall c hc
        · rw [List.mem_singleton.mp hc]
          exact hlast
      · rw [decimal, List.foldl_append, List.foldl_cons, List.foldl_nil, ← decimal, hdec, hval]
        omega

theorem digitText_ne_nil (n : Nat) : digitText n ≠ [] := by
  rw [digitText_cases]
  simp

/-- The sign and the digits, for every integer whose negation does not wrap around. -/
theorem intToStr_eq {v : Int} (hlo : -2^31 < v) (hhi : v < 2^31) :
    intToStr v = (if v < 0 then ['-'.toUInt8] else []) ++ digitText v.natAbs := by
  unfold intToStr
  split
  · next h =>
    subst h
    rfl
  · next h =>
    split
    · next hneg =>
      have hwrap : (wrap32 (-v)).toNat = v.natAbs := by
        rw [wrap32_eq ⟨by omega, by omega⟩]
        omega
      rw [hwrap, digitLoop_eq (by omega) (by omega), List.append_nil]
      rfl
    · next hpos =>
      have habs : v.toNat = v.natAbs := by omega
      rw [habs, digitLoop_eq (by omega) (by omega), List.append_nil]
      rfl

private theorem digitText_length {k : Nat} (hlt : n < 10^(k+1)) : (digitText n).length ≤ k + 1 := by
  induction k generalizing n with
  | zero =>
    rw [digitText_cases, if_pos (by omega)]
    rfl
  | succ k ih =>
    rw [digitText_cases]
    split
    · simp
    · have := ih (n := n / 10) (by rw [Nat.pow_succ] at hlt; omega)
      rw [List.length_append, List.length_singleton]
      omega

theorem intToStr_length {v : Int} (hlo : -2^31 < v) (hhi : v < 2^31) : (intToStr v).length ≤ 255 := by
  have hdigits := digitText_length (n := v.natAbs) (k := 9) (by omega)
  rw [intToStr_eq hlo hhi, List.length_append]
  split
  · rw [List.length_singleton]
    omega
  · rw [List.length_nil]
    omega

theorem intToStr_canonical {v : Int} (hlo : -2^31 < v) (hhi : v < 2^31) : intToStr v = ascii (toString v) := by
  rw [intToStr_eq hlo hhi]
  have hrepr : toString v = if 0 ≤ v then toString v.toNat else "-" ++ toString v.natAbs := by
    cases v with
    | ofNat m => rfl
    | negSucc m => rfl
  rw [hrepr]
  by_cases h : v < 0
  · rw [if_pos h, if_neg (by omega), digitText, ascii, ascii, String.toList_append, List.map_append]
    rfl
  · rw [if_neg h, if_pos (by omega), show v.natAbs = v.toNat by omega]
    rfl

theorem parseInt_intToStr {v : Int} (hlo : -2^31 < v) (hhi : v < 2^31) : parseInt (intToStr v) = some v := by
  obtain ⟨hall, hdec⟩ := digitText_digits v.natAbs
  have hdigits : ¬ (digitText v.natAbs = [] ∨ ¬ (digitText v.natAbs).all isDigit = true) := by
    rintro (h | h)
    · exact digitText_ne_nil _ h
    · exact h (List.all_eq_true.mpr hall)
  have hval : digitsVal (digitText v.natAbs) = v.natAbs := by
    rw [digitsVal_eq, hdec, wrap32_eq ⟨by omega, by omega⟩]
  rw [intToStr_eq hlo hhi, parseInt]
  by_cases h : v < 0
  · simp only [h, if_true, List.cons_append, List.nil_append, List.headD_cons, List.tail_cons]
    rw [if_neg hdigits, hval, wrap32_eq ⟨by omega, by omega⟩]
    congr 1
    omega
  · have hhead : (digitText v.natAbs).headD 0 ≠ '-'.toUInt8 := by
      cases hd : digitText v.natAbs with
      | nil => exact absurd hd (digitText_ne_nil _)
      | cons c cs =>
        have hc := hall c (by rw [hd]; exact List.mem_cons_self)
        rintro rfl
        exact absurd hc (by decide)
    simp only [h, if_false, List.nil_append, hhead]
    rw [if_neg hdigits, hval]
    congr 1
    omega

/-! The expression `int("" + x) == x`. -/

def castBack (name : List UInt8) : Expr :=
  .binop .eq (.call (ascii "int") [.binop .add (.str []) (.var name)]) (.var name)

section
variable {nodes : List Node} {s s' : Run} {i c fuel : Nat} {name : List UInt8} {w : Var} {m : Node}

private theorem eval_variable (hi : Holds (cell s.nodes) [(Expr.var name).toTree] [i]) (he : s.error = none)
    (hw : findVar s.vars name = some w) : eval (fuel + 1) (some i) s = .ok w.val s := by
  rw [Expr.toTree] at hi
  obtain ⟨n, hget, hlabel, -⟩ := node_of_holds hi
  have htype : n.type = .var := congrArg Label.type hlabel
  have hname : n.strVal = name := congrArg Label.strVal hlabel
  rw [eval_node hget he, evalNode, htype]
  simp only [evalVar]
  rw [bind_ok (get_apply s), hname, hw]
  rfl

/-- A binary operator that is neither `and` nor `or`, with operands that leave the state alone. -/
private theorem eval_expr_strict {op : BinOp} {l r : Expr} {a b : Value} (hand : op.token ≠ .and)
    (hor : op.token ≠ .or)
    (hi : Holds (cell s.nodes) [(Expr.binop op l r).toTree] [i]) (he : s.error = none)
    (hl : ∀ c, Holds (cell s.nodes) [l.toTree] [c] → eval fuel (some c) s = .ok a s)
    (hr : ∀ c, Holds (cell s.nodes) [r.toTree] [c] → eval fuel (some c) s = .ok b s) :
    eval (fuel + 1) (some i) s = strictOp op.token a b s := by
  rw [Expr.toTree] at hi
  obtain ⟨n, hget, hlabel, hkids⟩ := node_of_holds hi
  obtain ⟨c, cs, hcs, hc, hkids⟩ := hkids.uncons
  obtain ⟨c', cs', rfl, hc', -⟩ := hkids.uncons
  have htype : n.type = .binop := congrArg Label.type hlabel
  have hop : n.op = op.token := congrArg Label.op hlabel
  rw [eval_node hget he, evalNode, htype]
  simp only [evalBinop, hop, if_neg hand, if_neg hor, hcs]
  have hleft : eval fuel (c :: c' :: cs')[0]? s = .ok a s := hl c hc
  have hright : eval fuel (c :: c' :: cs')[1]? s = .ok b s := hr c' hc'
  rw [bind_ok hleft, unlessError, bind_ok (get_apply s), he]
  simp only [Option.isSome_none, Bool.false_eq_true, if_false]
  rw [bind_ok hright, unlessError, bind_ok (get_apply s), he]
  rfl

/-- What `int()` makes of a string. -/
def castResult (text : List UInt8) : GkM Value :=
  match parseInt text with
  | some v => return .int v
  | none => evalError .intLiteral

private theorem evalIntCast_str {ev : Option Nat → GkM Value} {text : List UInt8} (hcs : m.children = [c])
    (hrun : ev (some c) s = .ok (.str text) s') (he : s'.error = none) :
    evalIntCast ev m s = castResult text s' := by
  have hrun' : ev m.children[0]? s = .ok (.str text) s' := by rw [hcs]; exact hrun
  rw [evalIntCast, if_neg (by simp [hcs]), bind_ok hrun', unlessError, bind_ok (get_apply s'), he]
  simp only [Option.isSome_none, Bool.false_eq_true, if_false]
  rfl

private theorem evalIntCast_text {ev : Option Nat → GkM Value} {v : Int} (hcs : m.children = [c])
    (hrun : ev (some c) s = .ok (.str (intToStr v)) s') (he : s'.error = none)
    (hv : parseInt (intToStr v) = some v) :
    evalIntCast ev m s = .ok (.int v) s' := by
  rw [evalIntCast_str hcs hrun he, castResult, hv]
  rfl

private theorem eval_castBack {v : Int} (hi : Holds (cell s.nodes) [(castBack name).toTree] [i])
    (he : s.error = none)
    (hw : findVar s.vars name = some w) (hval : w.val = .int v) (hv : parseInt (intToStr v) = some v)
    (hlen : (intToStr v).length ≤ 255) : eval (fuel + 4) (some i) s = .ok (.bool true) s := by
  have hvar : ∀ f c, Holds (cell s.nodes) [(Expr.var name).toTree] [c] →
    eval (f + 1) (some c) s = .ok (.int v) s :=
    fun f c hc => hval ▸ eval_variable hc he hw
  have hempty : ∀ c, Holds (cell s.nodes) [(Expr.str []).toTree] [c] →
    eval (fuel + 1) (some c) s = .ok (.str []) s := by
    intro c hc
    rw [Expr.toTree] at hc
    obtain ⟨n, hget, hlabel, -⟩ := node_of_holds hc
    have htype : n.type = .str := congrArg Label.type hlabel
    have htext : n.strVal = [] := congrArg Label.strVal hlabel
    rw [eval_node hget he, evalNode, htype]
    simp only [htext]
    rfl
  have hjoin : ∀ c, Holds (cell s.nodes) [(Expr.binop .add (.str []) (.var name)).toTree] [c] →
      eval (fuel + 2) (some c) s = .ok (.str (intToStr v)) s := by
    intro c hc
    rw [eval_expr_strict (by decide) (by decide) hc he hempty (hvar fuel)]
    simp only [strictOp, BinOp.token, valToStr, strcat, List.nil_append, List.length_nil]
    rw [List.take_of_length_le (by simpa [maxStr] using hlen)]
    rfl
  have hcast : ∀ c, Holds (cell s.nodes)
    [(Expr.call (ascii "int") [.binop .add (.str []) (.var name)]).toTree] [c] →
      eval (fuel + 3) (some c) s = .ok (.int v) s := by
    intro c hc
    rw [Expr.toTree] at hc
    obtain ⟨n, hget, hlabel, hkids⟩ := node_of_holds hc
    obtain ⟨c', cs, hcs, hc', hkids⟩ := hkids.uncons
    obtain rfl : cs = [] := List.length_eq_zero_iff.mp hkids.length_eq.symm
    have htype : n.type = .intCast := (congrArg Label.type hlabel).trans (by decide)
    rw [eval_node hget he, evalNode, htype]
    exact evalIntCast_text hcs (hjoin c' hc') he hv
  rw [eval_expr_strict (by decide) (by decide) hi he hcast (hvar _)]
  simp only [strictOp, BinOp.token, sameValue, decide_true]
  rfl

end

/-- The text of `v` is the standard one, `int()` of it is `v` again, and `int("" + x) == x`
is true wherever `x` is `v`. -/
structure RoundTrips (v : Int) : Prop where
  canonical : intToStr v = ascii (toString v)
  cast : ∀ (ev : Option Nat → GkM Value) (n : Node) (c : Nat) (s s' : Run), n.children = [c] →
    ev (some c) s = .ok (.str (intToStr v)) s' → s'.error = none → evalIntCast ev n s = .ok (.int v) s'
  same : ∀ (name : List UInt8) (w : Var) (i : Nat) (s : Run),
    Holds (cell s.nodes) [(castBack name).toTree] [i] →
    s.error = none → findVar s.vars name = some w → w.val = .int v →
      ∃ N, ∀ fuel ≥ N, eval fuel (some i) s = .ok (.bool true) s

/-- Every 32-bit integer but the least one survives the way into text and back. -/
theorem int_text_round_trips_iff {v : Int} (hlo : -2^31 ≤ v) (hhi : v < 2^31) : RoundTrips v ↔ v ≠ -2^31 := by
  constructor
  · rintro ⟨hcanonical, -⟩ rfl
    exact absurd hcanonical (by decide)
  · intro hne
    have hlo' : -2^31 < v := by omega
    have hv := parseInt_intToStr hlo' hhi
    refine ⟨intToStr_canonical hlo' hhi, fun ev n c s s' hcs hrun he => evalIntCast_text hcs hrun he hv, ?_⟩
    intro name w i s hi he hw hval
    refine ⟨4, fun fuel hfuel => ?_⟩
    obtain ⟨f, rfl⟩ : ∃ f, fuel = f + 4 := ⟨fuel - 4, by omega⟩
    exact eval_castBack hi he hw hval hv (intToStr_length hlo' hhi)

/-- The other end of the range. -/
theorem int_text_round_trips_greatest : RoundTrips 2147483647 :=
  (int_text_round_trips_iff (by decide) (by decide)).mpr (by decide)

/-- The text of the least integer is a sign without digits, and no literal for `int()`. -/
theorem least_integer_has_no_digits : intToStr (-2147483648) = ascii "-" ∧
    parseInt (intToStr (-2147483648)) = none ∧
    ¬ RoundTrips (-2147483648) := by
  have htext : intToStr (-2147483648) = ascii "-" := by decide
  refine ⟨htext, by rw [htext]; decide, fun h => ?_⟩
  have hcanonical := h.canonical
  rw [htext] at hcanonical
  exact absurd hcanonical (by decide)

/-! ### `int()` of any text -/

/-- The texts of the form `-?[0-9]+`, with the integer each stands for. -/
inductive Denotes : List UInt8 → Int → Prop
  | digits {ds : List UInt8} (hne : ds ≠ []) (hds : ∀ c ∈ ds, isDigit c = true) : Denotes ds (decimal ds)
  | minus {ds : List UInt8} (hne : ds ≠ []) (hds : ∀ c ∈ ds, isDigit c = true) :
      Denotes ('-'.toUInt8 :: ds) (-decimal ds)

variable {text : List UInt8} {v : Int}

private theorem not_minus {ds : List UInt8} (hne : ds ≠ []) (hds : ∀ c ∈ ds, isDigit c = true) :
    ds.headD 0 ≠ '-'.toUInt8 := by
  cases ds with
  | nil => exact absurd rfl hne
  | cons c ds =>
    rintro rfl
    exact absurd (hds _ (List.mem_cons_self ..)) (by decide)

theorem Denotes.unique {v' : Int} (h : Denotes text v) (h' : Denotes text v') : v = v' := by
  cases h with
  | @digits ds hne hds =>
    cases h' with
    | digits => rfl
    | minus => exact absurd rfl (not_minus hne hds)
  | @minus ds =>
    cases h' with
    | digits hne hds => exact absurd rfl (not_minus hne hds)
    | minus => rfl

/-- The accumulator wraps around, so what comes out is the integer up to a multiple of `2^32`. -/
theorem parseInt_eq (h : Denotes text v) : parseInt text = some (wrap32 v) := by
  cases h with
  | @digits ds hne hds =>
    have hform : ¬ (text = [] ∨ ¬ text.all isDigit = true) := by simpa [hne] using hds
    simp only [parseInt, if_neg (not_minus hne hds), if_neg hform]
    rw [digitsVal_eq]
  | @minus ds hne hds =>
    have hform : ¬ (ds = [] ∨ ¬ ds.all isDigit = true) := by simpa [hne] using hds
    simp only [parseInt, List.headD_cons, List.tail_cons, if_true, if_neg hform]
    rw [digitsVal_eq, wrap32, wrap32, Int.bmod_neg_bmod]
    rfl

theorem parseInt_eq_none (h : ∀ v, ¬ Denotes text v) : parseInt text = none := by
  simp only [parseInt]
  by_cases hneg : text.headD 0 = '-'.toUInt8
  · simp only [if_pos hneg]
    refine if_pos (Decidable.byContradiction fun hform => ?_)
    obtain ⟨hne, hds⟩ := not_or.mp hform
    cases text with
    | nil => exact absurd hneg (by decide)
    | cons c ds =>
      obtain rfl : c = '-'.toUInt8 := hneg
      exact h _ (.minus hne (List.all_eq_true.mp (Decidable.not_not.mp hds)))
  · simp only [if_neg hneg]
    refine if_pos (Decidable.byContradiction fun hform => ?_)
    obtain ⟨hne, hds⟩ := not_or.mp hform
    exact h _ (.digits hne (List.all_eq_true.mp (Decidable.not_not.mp hds)))

/-- Node `i` is `int()` of an argument that evaluates to the text. -/
structure CastOf (text : List UInt8) (fuel i : Nat) (s s' : Run) : Prop where
  arg : ∃ n c, s.nodes[i]? = some n ∧ n.type = .intCast ∧ n.children = [c] ∧
  eval fuel (some c) s = .ok (.str text) s'
  start : s.error = none
  done : s'.error = none

theorem eval_cast {fuel i : Nat} {s s' : Run} (h : CastOf text fuel i s s') :
    eval (fuel + 1) (some i) s = castResult text s' := by
  obtain ⟨n, c, hget, htype, hcs, hrun⟩ := h.arg
  rw [eval_node hget h.start, evalNode, htype]
  exact evalIntCast_str hcs hrun h.done

/-- The expression `int("...")`. -/
def castRun (text : List UInt8) : Run :=
  GkState.start { freshState [] with nodes := [⟨.intCast, 1, 0, [], .eof, [1]⟩, ⟨.str, 1, 0, text, .eof, []⟩] }

theorem castOf_castRun (text : List UInt8) : CastOf text 1 0 (castRun text) (castRun text) where
  arg := ⟨_, 1, rfl, rfl, rfl, (eval_node (i := 1) (n := ⟨.str, 1, 0, text, .eof, []⟩) rfl rfl).trans rfl⟩
  start := rfl
  done := rfl

/-- `int()` of the text is the integer it denotes, if that has 32 bits, and otherwise an error. -/
structure ExactCast (text : List UInt8) : Prop where
  value : ∀ v, Denotes text v → -2^31 ≤ v → v < 2^31 → ∀ fuel i s s', CastOf text fuel i s s' →
    eval (fuel + 1) (some i) s = .ok (.int v) s'
  error : (∀ v, Denotes text v → v < -2^31 ∨ 2^31 ≤ v) → ∀ fuel i s s', CastOf text fuel i s s' →
    ∃ u, eval (fuel + 1) (some i) s = .ok .none u ∧ u.error = some .intLiteral

private theorem not_exactCast (hv : Denotes text v) (hwide : ¬ (-2^31 ≤ v ∧ v < 2^31)) : ¬ ExactCast text := by
  intro h
  have hout : ∀ v', Denotes text v' → v' < -2^31 ∨ 2^31 ≤ v' := by
    intro v' hv'
    obtain rfl := hv.unique hv'
    omega
  obtain ⟨u, hrun, _⟩ := h.error hout 1 0 (castRun text) (castRun text) (castOf_castRun text)
  rw [eval_cast (castOf_castRun text), castResult, parseInt_eq hv] at hrun
  cases hrun

/-- `int()` goes wrong on the texts of the integers of more than 32 bits, and on no others. -/
theorem int_exact_iff (text : List UInt8) : ExactCast text ↔ ∀ v, Denotes text v → -2^31 ≤ v ∧ v < 2^31 := by
  constructor
  · intro h v hv
    exact Decidable.byContradiction fun hwide => not_exactCast hv hwide h
  · intro h
    constructor
    · intro v hv hlo hhi fuel i s s' hcast
      rw [eval_cast hcast, castResult, parseInt_eq hv, wrap32_eq ⟨hlo, hhi⟩]
      rfl
    · intro hout fuel i s s' hcast
      have hnone : ∀ v, ¬ Denotes text v := by
        intro v hv
        have := h v hv
        cases hout v hv <;> omega
      rw [eval_cast hcast, castResult, parseInt_eq_none hnone]
      exact ⟨_, rfl, rfl⟩

/-- The text of `2^32 + 1` is accepted as 1. -/
theorem large_text_accepted : parseInt (ascii "4294967297") = some 1 ∧ ¬ ExactCast (ascii "4294967297") := by
  have hdenotes : Denotes (ascii "4294967297") 4294967297 := .digits (by decide) (by decide +kernel)
  exact ⟨by decide, not_exactCast hdenotes (by decide)⟩

end GeckoOS.Gk
