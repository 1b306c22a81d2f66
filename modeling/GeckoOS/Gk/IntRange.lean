import GeckoOS.Gk.ValueFlow

/-! Every integer of a token, of a node and of a value is one of 32 bits. -/
namespace GeckoOS.Gk
open Lib

def Int32 (z : Int) : Prop := -2^31 ≤ z ∧ z < 2^31

theorem int32_zero : Int32 0 := by
  constructor
  · decide
  · decide

theorem int32_wrap (z : Int) : Int32 (wrap32 z) := wrap32_bounds z

theorem int32_digitsVal (digits : List UInt8) : Int32 (digitsVal digits) := by
  unfold digitsVal
  induction digits using List.reverseRecOn with
  | nil => exact int32_zero
  | append_singleton l c _ =>
    rw [List.foldl_append]
    exact int32_wrap _

theorem int32_parseInt {str : List UInt8} {v : Int} (h : parseInt str = some v) : Int32 v := by
  unfold parseInt at h
  simp only [Option.ite_none_left_eq_some, Option.some.injEq] at h
  obtain ⟨-, rfl⟩ := h
  split
  · exact int32_wrap _
  · exact int32_digitsVal _

/-! The tokens and the nodes. -/

theorem lexeme_int32 {c : UInt8} {src : List UInt8} {line : Nat} {t : Token}
    (h : (lexeme c src).1.token line = some t) :
    Int32 t.intVal := by
  unfold lexeme at h
  split at h
  · cases h
  split at h
  · cases h
  split at h
  · obtain rfl := Option.some.inj h
    exact int32_digitsVal _
  split at h
  · obtain rfl := Option.some.inj h
    exact int32_zero
  split at h
  · obtain rfl := Option.some.inj h
    exact int32_zero
  unfold operatorLexeme at h
  split at h
  · obtain rfl := Option.some.inj h
    exact int32_zero
  split at h
  · obtain rfl := Option.some.inj h
    exact int32_zero
  · cases h

theorem Lexical.int32 {t : Token} (h : Lexical t) : Int32 t.intVal := by
  obtain ⟨type, line, rfl⟩ | ⟨c, src, line, h⟩ := h
  · exact int32_zero
  · exact lexeme_int32 h

theorem gkLex_int32 {src : List UInt8} {s s' : Run} (h : gkLex src s = .ok () s') :
    ∀ t ∈ s'.tokens, Int32 t.intVal := by
  have hlexical := gkLex_lexical src s
  rw [h] at hlexical
  exact fun t ht => (hlexical t ht).int32

theorem Sourced.int32 {ts : List Token} {n : Node} (h : Sourced ts n) (hts : ∀ t ∈ ts, Int32 t.intVal) :
    Int32 n.intVal := by
  obtain h | h | ⟨t, ht, h⟩ := h.int
  · rw [h]
    exact int32_zero
  · rw [h]
    constructor <;> decide
  · rw [← h]
    exact hts t ht

/-- The nodes of a parsed program hold integers of 32 bits. -/
theorem gkParse_int32 {s s' : Run} {root : Nat} (hs : ∀ t ∈ s.tokens, Int32 t.intVal)
    (h : gkParse s = .ok root s') :
    ∀ n ∈ s'.nodes, Int32 n.intVal := by
  have hdrawn := gkParse_drawn s
  rw [h] at hdrawn
  exact fun n hn => (hdrawn.now.nodes n hn).int32 hs

/-! The values. -/

def Value.InRange : Value → Prop
  | .int v => Int32 v
  | _ => True

/-- The integers that an evaluation can come to. -/
structure InRange (s : Run) : Prop where
  vars : ∀ v ∈ s.vars, v.val.InRange
  returnVal : s.returnVal.InRange
  nodes : ∀ n ∈ s.nodes, Int32 n.intVal

/-- The quotient that the processor would not give has been excluded before. -/
theorem int32_tdiv {a b : Int} (ha : Int32 a) (hne : ¬ (a = -2147483648 ∧ b = -1)) : Int32 (a.tdiv b) := by
  have habs : (a.tdiv b).natAbs ≤ a.natAbs := by
    rw [Int.natAbs_tdiv]
    exact Nat.div_le_self _ _
  obtain ⟨hlo, hhi⟩ := ha
  by_cases hmin : (a.tdiv b) = 2147483648
  · exfalso
    have hfull : a.natAbs = 2147483648 := by omega
    have hmina : a = -2147483648 := by omega
    have hb : b.natAbs = 1 := by
      have hdiv : a.natAbs / b.natAbs = 2147483648 :=
        (Int.natAbs_tdiv a b).symm.trans (congrArg Int.natAbs hmin)
      rw [hfull] at hdiv
      rcases Nat.lt_trichotomy b.natAbs 1 with h | h | h
      · obtain h0 : b.natAbs = 0 := by omega
        rw [h0] at hdiv
        simp at hdiv
      · exact h
      · have := Nat.div_le_div_left (a := 2147483648) (show 2 ≤ b.natAbs by omega) (by decide)
        omega
    obtain rfl | rfl : b = 1 ∨ b = -1 := by omega
    · rw [hmina] at hmin
      exact absurd hmin (by decide)
    · exact hne ⟨hmina, rfl⟩
  · constructor <;> omega

theorem int32_tmod {a b : Int} (ha : Int32 a) : Int32 (a.tmod b) := by
  have habs : (a.tmod b).natAbs ≤ a.natAbs := by
    rw [Int.natAbs_tmod]
    exact Nat.mod_le _ _
  have hsign : 0 ≤ a → 0 ≤ a.tmod b := Int.tmod_nonneg b
  obtain ⟨hlo, hhi⟩ := ha
  constructor
  · omega
  · by_cases hpos : 0 ≤ a
    · omega
    · have := Int.tmod_nonneg b (a := -a) (by omega)
      rw [Int.neg_tmod] at this
      omega

theorem strictOp_inRange {op : TokenType} {l r v : Value} {s s' : Run} (hl : l.InRange)
    (h : strictOp op l r s = .ok v s') :
    v.InRange := by
  have hdiv : ∀ {a b zero result}, (¬ (a = -2147483648 ∧ b = -1) → Int32 result) →
      divide a b zero result s = .ok v s' → v.InRange := by
    intro a b zero result hres h
    rw [divide] at h
    split at h
    · cases h
      trivial
    · split at h
      · cases h
      · next hne =>
        cases h
        exact hres hne
  unfold strictOp at h
  split at h
  · cases h
    trivial
  · cases h
    trivial
  · cases h
    trivial
  · unfold integerOp at h
    split at h
    case h_4 => exact hdiv (fun hne => int32_tdiv hl hne) h
    case h_5 => exact hdiv (fun _ => int32_tmod hl) h
    case h_1 | h_2 | h_3 =>
      cases h
      exact int32_wrap _
    all_goals
      cases h
      trivial
  · cases h
    trivial

/-- The values of 32 bits, under any name. -/
def intDomain (nodes : List Node) : Domain := ⟨nodes, Value.InRange, fun _ => True⟩

theorem closed_intDomain {nodes : List Node} (h : ∀ n ∈ nodes, Int32 n.intVal) : (intDomain nodes).Closed where
  none := trivial
  bool _ := trivial
  int n hn _ := h n hn
  str _ _ _ := trivial
  name _ _ _ := trivial
  func _ _ _ := ⟨trivial, fun _ _ => trivial⟩
  negative v := int32_wrap (-v)
  strict _ _ _ _ _ _ hl _ hrun := strictOp_inRange hl hrun
  line _ := trivial
  parsed _ _ hp := int32_parseInt hp
  counter _ _ hlimit hlo hhi := ⟨Int.le_trans (by decide) hlo, Int.lt_trans hhi hlimit.2⟩

theorem InRange.held {s : Run} (h : InRange s) : Held (intDomain s.nodes).Within s.past s :=
  .refl ⟨rfl, fun v hv => ⟨trivial, h.vars v hv⟩, fun _ _ => ⟨trivial, fun _ _ => trivial⟩, h.returnVal⟩

theorem inRange_of_held {s t : Run} (hs : InRange s) (h : Held (intDomain s.nodes).Within s.past t) :
    InRange t :=
  ⟨fun v hv => (h.now.vars v hv).2, h.now.returnVal, by rw [h.now.nodes_eq]; exact hs.nodes⟩

/-- Every evaluation gives a value of 32 bits and keeps all others so. -/
theorem gives_eval (fuel : Nat) (i : Option Nat) : Gives InRange Value.InRange (eval fuel i) := by
  intro s hs
  obtain ⟨hfinal, hok⟩ := within_eval (closed_intDomain hs.nodes) fuel i s hs.held
  exact ⟨inRange_of_held hs hfinal, hok⟩

/-- Every evaluation in a program begins with integers of 32 bits. -/
theorem Evaluates.inRange {via : NodeType → Prop} {fuel fuel' : Nat} {i j : Option Nat} {s t : Run}
    (h : Evaluates via fuel i s fuel' j t) (hs : InRange s) : InRange t :=
  inRange_of_held hs (h.within (closed_intDomain hs.nodes) hs.held)

end GeckoOS.Gk
