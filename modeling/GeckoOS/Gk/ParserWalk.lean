import GeckoOS.Gk.Lexer
import GeckoOS.Gk.ParserTrees
import Mathlib.Data.List.Infix

/-! What holds of the parser however it ends: it touches only the nodes, the
cursor and the error, and it stores only inside the child arrays unless it comes
to a definition that has too many parameters. -/
namespace GeckoOS.Gk
open Lib

/-- No node has more children than its array holds. -/
def GkState.Narrow (m : GkState) : Prop := ∀ x ∈ m.nodes, x.children.length ≤ maxChildren

/-- The names at the beginning of a parameter list. -/
def paramCount : List TokenType → Nat
  | [] => 0
  | [t] => if t = .ident then 1 else 0
  | t :: c :: ts => if t = .ident then if c = .comma then paramCount ts + 1 else 1 else 0

/-- A definition at this place has at most 63 parameters. -/
def narrowDef : List TokenType → Bool
  | d :: name :: paren :: ts =>
    !(d == .kwDef && name == .ident && paren == .lparen) || paramCount ts < maxChildren
  | _ => true

/-- All definitions have, so that the parameters and the body fit into `child`. -/
def narrowDefs (ts : List TokenType) : Bool := ts.tails.all narrowDef

def Run.tokenTypes (s : Run) : List TokenType := s.tokens.map (·.type)

/-- From one state of the parser to a later one. -/
structure Parsing (m m' : GkState) : Prop where
  frame : { m' with nodes := m.nodes, tokPos := m.tokPos, error := m.error } = m
  narrow : m.Narrow → m'.Narrow

namespace Parsing
variable {m m' m'' : GkState}

theorem refl (m : GkState) : Parsing m m := ⟨rfl, id⟩

theorem trans (h : Parsing m m') (h' : Parsing m' m'') : Parsing m m'' where
  frame := by
    have hf := h.frame
    rw [← h'.frame] at hf
    exact hf
  narrow := h'.narrow ∘ h.narrow

theorem tokens (h : Parsing m m') : m'.tokens = m.tokens := (congrArg (fun x : GkState => x.tokens) h.frame :)

end Parsing

/-- A run of the parser from `s` with the outcome `r`, where `W` is said of a store behind an array. -/
structure Walked {α : Type} (W : Prop) (s : Run) (r : EStateM.Result Stop Run α) : Prop where
  state : Parsing s.toGkState (final r).toGkState
  past : ∀ m ∈ (final r).past, m ∈ s.past ∨ (Parsing s.toGkState m ∧ m.error = s.error)
  ok : ∀ a s', r = .ok a s' → s'.error = s.error
  failed : ∀ s', r = .error .failed s' → s'.error ≠ none
  overrun : ∀ s', r = .error .overrun s' → W

variable {α β : Type} {W : Prop} {s s' : Run} {p : GkM α} {k : α → GkM β} {n c fuel : Nat} {expr stmt : GkM Nat}

private theorem not_error {a : α} {e : Stop} {P : Prop}
    (h : (.ok a s : EStateM.Result Stop Run α) = .error e s') : P := by
  cases h

private theorem not_ok {a : α} {e : Stop} {P : Prop}
    (h : (.error e s : EStateM.Result Stop Run α) = .ok a s') : P := by
  cases h

namespace Walked

protected theorem bind (hp : Walked W s (p s)) (hk : ∀ a s', p s = .ok a s' → Walked W s' (k a s')) :
    Walked W s ((p >>= k) s) := by
  cases h : p s with
  | error e s' =>
    rw [bind_error h]
    rw [h] at hp
    exact ⟨hp.state, hp.past, fun _ _ => not_ok, fun s'' he => hp.failed s'' (by cases he; rfl),
      fun s'' he => hp.overrun s'' (by cases he; rfl)⟩
  | ok a s' =>
    rw [bind_ok h]
    have hk := hk a s' h
    rw [h] at hp
    have herr := hp.ok a s' rfl
    refine ⟨hp.state.trans hk.state, fun m hm => ?_, fun b s'' h' => ?_, hk.failed, hk.overrun⟩
    · obtain hm | ⟨hm, he⟩ := hk.past m hm
      · exact hp.past m hm
      · exact .inr ⟨hp.state.trans hm, he.trans herr⟩
    · exact (hk.ok b s'' h').trans herr

protected theorem pure (a : α) (s : Run) : Walked W s ((pure a : GkM α) s) :=
  ⟨.refl _, fun _ hm => .inl hm, fun _ _ h => by cases h; rfl, fun _ => not_error, fun _ => not_error⟩

theorem outOfFuel (s : Run) : Walked W s ((throw .outOfFuel : GkM α) s) :=
  ⟨.refl _, fun _ hm => .inl hm, fun _ _ => not_ok, fun _ h => (by cases h), fun _ h => (by cases h)⟩

theorem fail (e : GkError) (s : Run) : Walked W s ((fail e : GkM α) s) :=
  ⟨⟨rfl, id⟩, fun _ hm => .inl hm, fun _ _ => not_ok, fun _ h => by cases h; exact Option.some_ne_none e,
    fun _ h => by cases h⟩

/-- A step that only looks at the state or moves the cursor. -/
theorem moved {k : Nat} {a : α} (h : p s = .ok a (s.forward k)) : Walked W s (p s) := by
  rw [h]
  exact ⟨⟨rfl, id⟩, fun _ hm => .inl hm, fun _ _ h => by cases h; rfl, fun _ => not_error, fun _ => not_error⟩

/-- A change of the nodes. -/
theorem update {f : List Node → List Node} (hf : s.Narrow → ∀ x ∈ f s.nodes, x.children.length ≤ maxChildren) :
    Walked W s (update (fun m => { m with nodes := f m.nodes }) s) := by
  refine ⟨⟨rfl, hf⟩, fun m hm => ?_, fun _ _ h => by cases h; rfl, fun _ => not_error, fun _ => not_error⟩
  obtain rfl | hm := List.mem_cons.mp hm
  · exact .inr ⟨.refl _, rfl⟩
  · exact .inl hm

end Walked

/-- From any state, and without a store behind an array. -/
def Walks (p : GkM α) : Prop := ∀ ⦃W : Prop⦄ (s : Run), Walked W s (p s)

theorem Walks.bind (hp : Walks p) (hk : ∀ a, Walks (k a)) : Walks (p >>= k) := fun _ s =>
  (hp s).bind fun a s' _ => hk a s'

protected theorem Walks.pure (a : α) : Walks (pure a) := fun _ => Walked.pure a

theorem Walks.fail (e : GkError) : Walks (fail e : GkM α) := fun _ => Walked.fail e

theorem Walks.outOfFuel : Walks (throw .outOfFuel : GkM α) := fun _ => Walked.outOfFuel

theorem Walks.ite {c : Prop} [Decidable c] {p q : GkM α} (hp : Walks p) (hq : Walks q) :
    Walks (if c then p else q) := by
  split
  · exact hp
  · exact hq

/-- A check that fails with an error. -/
theorem Walks.guard {c : Prop} [Decidable c] {e : GkError} {jp : Unit → GkM α} (h : Walks (jp ())) :
    Walks (if c then Gk.fail e >>= jp else jp ()) := .ite ((Walks.fail e).bind fun _ => h) h

theorem walks_peek : Walks peek := fun _ _ => .moved (k := 0) rfl

theorem walks_check (t : TokenType) : Walks (check t) := fun _ _ => .moved (k := 0) rfl

theorem walks_advance : Walks advance := by
  intro W s
  by_cases h : s.current.type = .eof
  · refine .moved (k := 0) (a := ()) ?_
    rw [advance, bind_ok (peek_apply s), if_neg (not_not.mpr h)]
    rfl
  · exact .moved (advance_apply h)

theorem walks_matchToken (t : TokenType) : Walks (matchToken t) :=
  (walks_check t).bind fun _ => .ite (walks_advance.bind fun _ => .pure _) (.pure _)

theorem walks_expect (t : TokenType) (e : GkError) : Walks (expect t e) :=
  (walks_matchToken t).bind fun _ => .ite (.fail e) (.pure _)

theorem walks_skipNewlines : Walks skipNewlines := fun _ s => .moved (skipNewlines_apply s)

theorem walks_newNode (type : NodeType) (line : Nat) : Walks (newNode type line) := by
  intro W s
  rw [newNode, bind_ok (get_apply s)]
  split
  · exact .bind (.fail _ s) fun _ _ => not_ok
  · refine .bind (.update (f := fun nodes => nodes ++ [⟨type, line, 0, [], .int, []⟩]) fun h x hx => ?_)
      fun _ _ _ => .pure _ _
    obtain hx | hx := List.mem_append.mp hx
    · exact h x hx
    · rw [List.mem_singleton.mp hx]
      exact Nat.zero_le _

/-- The other children are as they were. -/
theorem walked_setNode {f : Node → Node}
    (hf : s.Narrow → ∀ x, s.nodes[n]? = some x → (f x).children.length ≤ maxChildren) :
      Walked W s (setNode n f s) := by
  refine .update (f := fun nodes => nodes.modify n f) fun h x hx => ?_
  obtain ⟨i, hi⟩ := List.mem_iff_getElem?.mp hx
  rw [List.getElem?_modify] at hi
  obtain ⟨y, hy, rfl⟩ := Option.map_eq_some_iff.mp hi
  split
  · next heq => exact hf h y (by rw [heq, hy])
  · exact h y (List.mem_of_getElem? hy)

theorem walks_setChildren (n : Nat) {kids : List Nat} (h : kids.length ≤ maxChildren) :
    Walks (setNode n fun x => { x with children := kids }) := fun _ _ => walked_setNode fun _ _ _ => h

theorem walks_leaf (type : NodeType) (line : Nat) (v : Int) (str : List UInt8) : Walks (leaf type line v str) :=
  (walks_newNode type line).bind fun _ =>
    Walks.bind (fun _ _ => walked_setNode fun h x hx => h x (List.mem_of_getElem? hx)) fun _ => .pure _

theorem walks_operatorNode (type : NodeType) (t : Token) {kids : List Nat} (h : kids.length ≤ maxChildren) :
    Walks (operatorNode type t kids) :=
  (walks_newNode type t.line).bind fun _ =>
    Walks.bind (fun _ _ => walked_setNode fun _ _ _ => h) fun _ => .pure _

/-- The unchecked store, with what holds where there is no room. -/
theorem walked_addChild (h : maxChildren ≤ (s.nodes[n]?.map fun x => x.children.length).getD 0 → W) :
    Walked W s (addChild n c s) := by
  rw [addChild, bind_ok (get_apply s)]
  split
  · next hroom =>
    refine walked_setNode fun _ x hx => ?_
    rw [hx] at hroom
    rw [List.length_append]
    exact hroom
  · next hfull =>
    exact ⟨.refl _, fun _ hm => .inl hm, fun _ _ => not_ok, fun _ h => (by cases h), fun _ _ =>
      h (Nat.le_of_not_lt hfull)⟩

theorem walks_addChecked (n c : Nat) (e : GkError) : Walks (addChecked n c e) := by
  intro W s
  rw [addChecked, bind_ok (get_apply s)]
  split
  · exact .bind (.fail _ s) fun _ _ => not_ok
  · next hroom => exact walked_addChild fun hfull => absurd hfull hroom

theorem walks_argLoop (he : Walks expr) (n fuel : Nat) : Walks (argLoop expr n fuel) := by
  induction fuel with
  | zero => exact Walks.outOfFuel
  | succ fuel ih =>
    exact (walks_check _).bind fun _ => (walks_check _).bind fun _ => .ite
      (he.bind fun _ => (walks_addChecked _ _ _).bind fun _ => (walks_matchToken _).bind fun _ =>
        .ite ih (.pure _))
      (.pure _)

theorem walks_parsePrimary (he : Walks expr) (fuel : Nat) : Walks (parsePrimary fuel expr) := by
  refine walks_peek.bind fun t => ?_
  have hleaf : ∀ type v str, Walks (do advance; leaf type t.line v str) := fun type v str =>
    walks_advance.bind fun _ => walks_leaf type t.line v str
  split
  · exact hleaf _ _ _
  · exact hleaf _ _ _
  · exact hleaf _ _ _
  · exact hleaf _ _ _
  · exact walks_advance.bind fun _ => (walks_check _).bind fun _ => .ite
      (walks_advance.bind fun _ => (walks_leaf _ _ _ _).bind fun n => (walks_argLoop he n fuel).bind fun _ =>
        (walks_expect _ _).bind fun _ => .pure _)
      (walks_leaf _ _ _ _)
  · exact walks_advance.bind fun _ => he.bind fun _ => (walks_expect _ _).bind fun _ => .pure _
  · exact Walks.fail _

theorem walks_parseUnary (hp : Walks expr) (fuel : Nat) : Walks (parseUnary expr fuel) := by
  induction fuel with
  | zero => exact Walks.outOfFuel
  | succ fuel ih =>
    exact walks_peek.bind fun t =>
      .ite (walks_advance.bind fun _ => ih.bind fun _ => walks_operatorNode _ _ (by simp [maxChildren])) hp

theorem walks_binaryLoop (ops : List TokenType) (hp : Walks expr) (fuel left : Nat) :
    Walks (binaryLoop ops expr fuel left) := by
  induction fuel generalizing left with
  | zero => exact Walks.outOfFuel
  | succ fuel ih =>
    exact walks_peek.bind fun t => .ite
      (walks_advance.bind fun _ => hp.bind fun _ =>
        (walks_operatorNode _ _ (by simp [maxChildren])).bind fun n => ih n) (.pure _)

theorem walks_parseBinary (ops : List TokenType) (fuel : Nat) (hp : Walks expr) :
    Walks (parseBinary ops fuel expr) :=
  hp.bind fun left => walks_binaryLoop ops hp fuel left

theorem walks_parseExpr (fuel : Nat) : Walks (parseExpr fuel) := by
  induction fuel with
  | zero => exact Walks.outOfFuel
  | succ fuel ih =>
    exact walks_parseBinary _ _ <| walks_parseBinary _ _ <| walks_parseBinary _ _ <| walks_parseBinary _ _ <|
      walks_parseBinary _ _ <| walks_parseUnary (walks_parsePrimary ih fuel) fuel

theorem walks_parseReturn (he : Walks expr) : Walks (parseReturn expr) := by
  have hend : ∀ n, Walks (do let _ ← matchToken .newline; return n : GkM Nat) := fun n =>
    (walks_matchToken _).bind fun _ => .pure n
  exact walks_peek.bind fun _ => walks_advance.bind fun _ => (walks_newNode _ _).bind fun n =>
    (walks_check _).bind fun _ => (walks_check _).bind fun _ => .ite
      (he.bind fun _ => (walks_setChildren _ (by simp [maxChildren])).bind fun _ => hend n) (hend n)

theorem walks_parseJump (type : NodeType) : Walks (parseJump type) :=
  walks_peek.bind fun _ => walks_advance.bind fun _ => (walks_matchToken _).bind fun _ => walks_newNode _ _

theorem walks_parseAssign (he : Walks expr) : Walks (parseAssign expr) :=
  walks_peek.bind fun _ => walks_advance.bind fun _ => walks_advance.bind fun _ =>
    (walks_leaf _ _ _ _).bind fun _ =>
    he.bind fun _ => (walks_setChildren _ (by simp [maxChildren])).bind fun _ =>
      (walks_matchToken _).bind fun _ => .pure _

theorem walks_parseExprStmt (he : Walks expr) : Walks (parseExprStmt expr) :=
  he.bind fun _ => (walks_matchToken _).bind fun _ => .pure _

/-- The types of the tokens from the cursor on. -/
def Run.types (s : Run) : List TokenType := s.ahead.map (·.type)

theorem types_of_current (h : s.current.type ≠ .eof) : s.types = s.current.type :: (s.forward 1).types := by
  rw [Run.types, ahead_of_current h, List.map_cons, ← Run.types]

theorem Grows.types {k : Nat} {new : List Node} (h : Grows k new s s') : s'.types = s.types.drop k := by
  rw [Run.types, h.ahead, List.map_drop, ← Run.types]

/-! ### The calls of `parse_stmt` -/

/-- The loop over the statements of the block `n`, begun in the first state, calls `stmt` in the second. -/
inductive LoopCalls (stmt : GkM Nat) (ends : List TokenType) (e : GkError) (n : Nat) : Run → Run → Prop
  | here {s : Run} (hne : s.current.type ∉ ends) : LoopCalls stmt ends e n s s
  | next {s s₁ s₂ s' : Run} {st : Nat} (hne : s.current.type ∉ ends) (hst : stmt s = .ok st s₁)
      (hadd : addChecked n st e s₁ = .ok () s₂) (hrest : LoopCalls stmt ends e n s₂.skipLines s') :
      LoopCalls stmt ends e n s s'

/-- The same for a block, for a header with its block, and for an `if` with what may follow it. -/
def BlockCalls (stmt : GkM Nat) (s s' : Run) : Prop :=
  s.current.type = .indent ∧ ∃ n s₁, newNode .block s.current.line (s.forward 1) = .ok n s₁ ∧
    LoopCalls stmt [.dedent, .eof] .blockTooLarge n s₁.skipLines s'

def HeaderCalls (expr stmt : GkM Nat) (s s' : Run) : Prop :=
  ∃ c s₁, expr s = .ok c s₁ ∧ s₁.current.type = .colon ∧ BlockCalls stmt ((s₁.forward 1).skip .newline) s'

def IfCalls (fuel : Nat) (expr stmt : GkM Nat) (s s' : Run) : Prop :=
  ∃ n s₁, newNode .ifNode s.current.line (s.forward 1) = .ok n s₁ ∧ (HeaderCalls expr stmt s₁ s' ∨
    ∃ c b s₂ s₃, parseHeader fuel expr stmt .colonAfterIf s₁ = .ok (c, b) s₂ ∧
      setNode n (fun x => { x with children := [c, b] }) s₂ = .ok () s₃ ∧
      ((s₃.skipLines.current.type = .kwElif ∧ s' = s₃.skipLines) ∨
        (s₃.skipLines.current.type = .kwElse ∧ (s₃.skipLines.forward 1).current.type = .colon ∧
          BlockCalls stmt ((s₃.skipLines.forward 2).skip .newline) s')))

/-- A definition comes to its body, with the parameters under the node `n`. -/
def DefHead (fuel : Nat) (s : Run) (n : Nat) (s' : Run) : Prop :=
  (s.forward 1).current.type = .ident ∧ ∃ s₁ s₂,
    leaf .defNode s.current.line 0 (s.forward 1).current.strVal (s.forward 2) = .ok n s₁ ∧
    s₁.current.type = .lparen ∧ paramLoop n fuel (s₁.forward 1) = .ok () s₂ ∧ s₂.current.type = .rparen ∧
    (s₂.forward 1).current.type = .colon ∧ s' = (s₂.forward 2).skip .newline

/-- `parse_stmt`, called in the first state, calls itself in the second. -/
def StmtCalls (fuel : Nat) (s s' : Run) : Prop :=
  match s.current.type with
  | .kwDef => ∃ n s₁, DefHead fuel s n s₁ ∧ BlockCalls (parseStmt fuel) s₁ s'
  | .kwIf | .kwElif => IfCalls fuel (parseExpr fuel) (parseStmt fuel) s s'
  | .kwWhile => ∃ n s₁, newNode .whileNode s.current.line (s.forward 1) = .ok n s₁ ∧
      HeaderCalls (parseExpr fuel) (parseStmt fuel) s₁ s'
  | .kwFor => (s.forward 1).current.type = .ident ∧ (s.forward 2).current.type = .kwIn ∧ ∃ n s₁,
      leaf .forNode s.current.line 0 (s.forward 1).current.strVal (s.forward 3) = .ok n s₁ ∧
      HeaderCalls (parseExpr fuel) (parseStmt fuel) s₁ s'
  | _ => False

/-- `gk_parse`, begun in `s₀`, calls `parse_stmt` in this state, with so much fuel. -/
inductive ParseCalls (s₀ : Run) : Nat → Run → Prop
  | top {n : Nat} {s₁ s : Run} (hroot : newNode .block 0 s₀.cleared = .ok n s₁)
      (hcall : LoopCalls (parseStmt (s₀.tokens.length + 2)) [.eof] .tooManyStatements n s₁.skipLines s) :
      ParseCalls s₀ (s₀.tokens.length + 2) s
  | inner {fuel : Nat} {s s' : Run} (hs : ParseCalls s₀ (fuel + 1) s) (hcall : StmtCalls fuel s s') :
      ParseCalls s₀ fuel s'

/-- The definition here does not fit into `child`: it has more than 64 parameters, and
there are nodes for 65, or it has 64 and the parser comes to the end of its body. -/
def WideDef (fuel : Nat) (stmt : GkM Nat) (s : Run) : Prop :=
  s.current.type = .kwDef ∧ (s.forward 1).current.type = .ident ∧ (s.forward 2).current.type = .lparen ∧
    ((maxChildren < paramCount (s.forward 3).types ∧ s.nodes.length + maxChildren + 2 ≤ maxNodes) ∨
      (paramCount (s.forward 3).types = maxChildren ∧
        ∃ n s₁ body s₂, DefHead fuel s n s₁ ∧ parseBlock fuel stmt s₁ = .ok body s₂))

/-- The parse of `s₀` comes to such a definition. -/
def MeetsWideDef (s₀ : Run) : Prop :=
  ∃ fuel s, ParseCalls s₀ (fuel + 1) s ∧ WideDef fuel (parseStmt fuel) s

/-! ### The statements -/

variable {s₀ : Run} {k : Nat} {label : Label} {trees : List (Lib.Tree Label)}

private theorem paramCount_pos {ts : List TokenType} : 0 < paramCount (.ident :: ts) := by
  cases ts with
  | nil => decide
  | cons c ts =>
    rw [paramCount, if_pos rfl]
    split <;> omega

theorem paramCount_eq_zero (h : s.current.type ≠ .ident) : paramCount s.types = 0 := by
  rw [current_headD] at h
  rw [Run.types]
  match hs : s.ahead with
  | [] => rfl
  | [t] =>
    rw [hs] at h
    exact if_neg h
  | t :: c :: ts =>
    rw [hs] at h
    exact if_neg h

/-- Behind a parameter and a comma there is one parameter less. -/
theorem paramCount_comma {s₂ : Run} (hident : s.current.type = .ident) (ha : s₂.types = (s.forward 1).types)
    (hcomma : s₂.current.type = .comma) : paramCount s.types = paramCount (s₂.forward 1).types + 1 := by
  rw [types_of_current (by rw [hident]; decide), ← ha, types_of_current (by rw [hcomma]; decide),
    hident, hcomma, paramCount, if_pos rfl, if_pos rfl]

theorem paramCount_last {s₂ : Run} (hident : s.current.type = .ident) (ha : s₂.types = (s.forward 1).types)
    (hcomma : s₂.current.type ≠ .comma) : paramCount s.types = 1 := by
  rw [types_of_current (by rw [hident]; decide), ← ha, hident]
  rw [current_headD] at hcomma
  rw [Run.types]
  match hs : s₂.ahead with
  | [] => rfl
  | c :: ts =>
    rw [hs] at hcomma
    rw [List.map_cons, paramCount, if_pos rfl]
    exact if_neg hcomma

theorem addChild_length (h : addChild n c s = .ok () s') : s'.nodes.length = s.nodes.length := by
  rw [addChild, bind_ok (get_apply s)] at h
  split at h
  · obtain ⟨-, rfl⟩ := EStateM.Result.ok.inj h
    exact List.length_modify ..
  · cases h

theorem leaf_length {type : NodeType} {line : Nat} {v : Int} {str : List UInt8}
    (h : leaf type line v str s = .ok n s') :
    s.nodes.length < maxNodes := by
  by_contra hfull
  rw [leaf, bind_error (newNode_full type line (Nat.le_of_not_lt hfull))] at h
  cases h

/-- A parameter is put under the open definition. -/
theorem Open.param {pn : Nat} {s₁ : Run} (ho : Open s₀ k label trees s)
    (h : leaf .var s.current.line 0 s.current.strVal (s.forward 1) = .ok pn s₁) :
    (∃ new, Grows 1 new s s₁) ∧ ∀ {s₂}, addChild s₀.nodes.length pn s₁ = .ok () s₂ →
      trees.length < maxChildren ∧
      Open s₀ (k + 1) label (trees ++ [.node (.text .var s.current.strVal) []]) s₂ ∧
        s₂.types = (s.forward 1).types ∧ s₂.nodes.length = s.nodes.length + 1 := by
  obtain ⟨rfl, hg⟩ := leaf_ok h
  have hg' := (Grows.forward s 1).trans hg
  refine ⟨⟨_, hg'⟩, fun hadd => ?_⟩
  obtain ⟨hroom, ho'⟩ := ho.addChild_ok hg' (hg.laid_post (.nil _)) hadd
  obtain ⟨new, hgo⟩ := ho.grows
  obtain ⟨new', hgo'⟩ := ho'.grows
  refine ⟨hroom, ho', ?_, (addChild_length hadd).trans hg.length⟩
  rw [hgo'.types, ← List.drop_drop, ← hgo.types, (Grows.forward s 1).types]

/-- The loop stores behind the array only if there is a parameter without a place, and a node for it. -/
private theorem walked_paramLoop (ho : Open s₀ k label trees s) (hle : trees.length ≤ maxChildren)
    (hW : maxChildren < trees.length + paramCount s.types →
      s.nodes.length + (maxChildren - trees.length) < maxNodes → W) :
    Walked W s (paramLoop s₀.nodes.length fuel s) := by
  induction fuel generalizing s k trees with
  | zero => exact .outOfFuel s
  | succ fuel ih =>
    rw [paramLoop, bind_ok (check_apply _ s), bind_ok (check_apply _ s)]
    split
    · rw [bind_ok (peek_apply s)]
      by_cases hident : s.current.type = .ident
      · rw [if_neg (not_not.mpr hident)]
        refine .bind (walks_advance s) fun u s₁ h₁ => ?_
        obtain rfl := advance_ok (by rw [hident]; decide) h₁
        refine .bind (walks_leaf _ _ _ _ _) fun pn s₂ h₂ => ?_
        obtain ⟨⟨new, hg⟩, hadd⟩ := ho.param h₂
        have hnodes := leaf_length h₂
        rw [forward_nodes] at hnodes
        have hcount := ho.childCount hg
        refine .bind (walked_addChild fun hfull => ?_) fun u' s₃ h₃ => ?_
        · rw [hcount] at hfull
          have hpos : 0 < paramCount s.types := by
            rw [types_of_current (by rw [hident]; decide), hident]
            exact paramCount_pos
          exact hW (by omega) (by omega)
        · obtain ⟨hroom, ho', hty, hlen⟩ := hadd h₃
          refine .bind (walks_matchToken _ s₃) fun b s₄ h₄ => ?_
          by_cases hcomma : s₃.current.type = .comma
          · rw [matchToken_hit hcomma (by decide)] at h₄
            cases h₄
            refine ih (ho'.forward 1) ?_ fun hcount' hnodes' => ?_
            · rw [List.length_append, List.length_singleton]
              exact hroom
            · rw [List.length_append, List.length_singleton] at hcount' hnodes'
              rw [forward_nodes, hlen] at hnodes'
              have hless := paramCount_comma hident hty hcomma
              exact hW (by omega) (by omega)
          · rw [matchToken_miss hcomma] at h₄
            cases h₄
            exact .pure _ _
      · rw [if_pos hident]
        exact .bind (.fail _ s) fun _ _ => not_ok
    · exact .pure _ _

/-- The loop adds a child for each parameter. -/
theorem paramLoop_count (ho : Open s₀ k label trees s) (hle : trees.length ≤ maxChildren) :
    ∀ {s'}, paramLoop s₀.nodes.length fuel s = .ok () s' → ∃ k' trees', Open s₀ k' label trees' s' ∧
      trees'.length = trees.length + paramCount s.types ∧ trees'.length ≤ maxChildren := by
  induction fuel generalizing s k trees with
  | zero =>
    intro s' h
    cases h
  | succ fuel ih =>
    intro s' h
    obtain ⟨hend, rfl⟩ | ⟨hident, pn, s₁, s₂, h₁, h₂, h⟩ := paramLoop_ok h
    · have hnone : paramCount s'.types = 0 := by
        refine paramCount_eq_zero fun h => ?_
        rw [h] at hend
        simp at hend
      exact ⟨k, trees, ho, by rw [hnone, Nat.add_zero], hle⟩
    · obtain ⟨-, hadd⟩ := ho.param h₁
      obtain ⟨hroom, ho', hty, -⟩ := hadd h₂
      have hlen : (trees ++ [Lib.Tree.node (Label.text .var s.current.strVal) []]).length =
        trees.length + 1 := by
        rw [List.length_append, List.length_singleton]
      obtain ⟨hcomma, h⟩ | ⟨hcomma, rfl⟩ := h
      · obtain ⟨k', trees', ho'', hcount, hle'⟩ := ih (ho'.forward 1) (hlen ▸ hroom) h
        refine ⟨k', trees', ho'', ?_, hle'⟩
        rw [hcount, hlen, paramCount_comma hident hty hcomma]
        omega
      · exact ⟨_, _, ho', by rw [hlen, paramCount_last hident hty hcomma], hlen ▸ hroom⟩

theorem walked_stmtLoop {ends : List TokenType} {e : GkError}
    (hs : ∀ s', LoopCalls stmt ends e n s s' → Walked W s' (stmt s')) :
      Walked W s (stmtLoop stmt ends e n fuel s) := by
  induction fuel generalizing s with
  | zero => exact .outOfFuel s
  | succ fuel ih =>
    rw [stmtLoop, bind_ok (peek_apply s)]
    split
    · next hne =>
      refine .bind (hs s (.here hne)) fun st s₁ h₁ => .bind (walks_addChecked _ _ _ _) fun u s₂ h₂ => ?_
      refine .bind (walks_skipNewlines s₂) fun u' s₃ h₃ => ?_
      obtain ⟨-, rfl⟩ := EStateM.Result.ok.inj h₃
      exact ih fun s' h => hs s' (.next hne h₁ h₂ h)
    · exact .pure _ _

theorem walked_parseBlock (hs : ∀ s', BlockCalls stmt s s' → Walked W s' (stmt s')) :
    Walked W s (parseBlock fuel stmt s) := by
  refine .bind (walks_peek s) fun t s₁ h₁ => ?_
  obtain ⟨rfl, rfl⟩ := EStateM.Result.ok.inj h₁
  refine .bind (walks_expect _ _ s) fun u s₁ h₁ => ?_
  obtain ⟨hindent, rfl⟩ := expect_ok (by decide) h₁
  refine .bind (walks_newNode _ _ _) fun n s₁ hnode => .bind (walks_skipNewlines _) fun u s₂ h₂ => ?_
  obtain ⟨-, rfl⟩ := EStateM.Result.ok.inj h₂
  refine .bind (walked_stmtLoop fun s' h => hs s' ⟨hindent, n, s₁, hnode, h⟩) fun u s₃ _ => ?_
  exact .bind (walks_matchToken _ _) fun _ _ _ => .pure _ _

theorem walked_parseHeader {e : GkError} (he : Walks expr)
    (hs : ∀ s', HeaderCalls expr stmt s s' → Walked W s' (stmt s')) :
    Walked W s (parseHeader fuel expr stmt e s) := by
  refine .bind (he s) fun c s₁ hc => .bind (walks_expect _ _ _) fun u s₂ h₂ => ?_
  obtain ⟨hcolon, rfl⟩ := expect_ok (by decide) h₂
  refine .bind (walks_matchToken _ _) fun b s₂ h₂ => ?_
  obtain rfl := matchToken_ok (by decide) h₂
  exact .bind (walked_parseBlock fun s' h => hs s' ⟨c, s₁, hc, hcolon, h⟩) fun _ _ _ => .pure _ _

theorem walked_parseIf (he : Walks expr) (hne : s.current.type ≠ .eof)
    (hs : ∀ s', IfCalls fuel expr stmt s s' → Walked W s' (stmt s')) :
      Walked W s (parseIf fuel expr stmt s) := by
  refine .bind (walks_peek s) fun t s₁ h₁ => ?_
  obtain ⟨rfl, rfl⟩ := EStateM.Result.ok.inj h₁
  refine .bind (walks_advance s) fun u s₁ h₁ => ?_
  obtain rfl := advance_ok hne h₁
  refine .bind (walks_newNode _ _ _) fun n s₁ hnode => ?_
  refine .bind (walked_parseHeader he fun s' h => hs s' ⟨n, s₁, hnode, .inl h⟩) fun ⟨c, b⟩ s₂ hheader => ?_
  refine .bind (walks_setChildren _ (by simp [maxChildren]) _) fun u s₃ hset =>
    .bind (walks_skipNewlines _) fun u' s₄ h₄ => ?_
  obtain ⟨-, rfl⟩ := EStateM.Result.ok.inj h₄
  -- the elif part is a statement, the else part a block
  have hrest : ∀ s', _ → Walked W s' (stmt s') :=
    fun s' h => hs s' ⟨n, s₁, hnode, .inr ⟨c, b, s₂, s₃, hheader, hset, h⟩⟩
  rw [bind_ok (check_apply _ _)]
  split
  · next helif =>
    exact .bind (hrest _ (.inl ⟨beq_iff_eq.mp helif, rfl⟩)) fun _ _ _ =>
      .bind (walks_setChildren _ (by simp [maxChildren]) _) fun _ _ _ => .pure _ _
  · rw [bind_ok (check_apply _ _)]
    split
    · next helse =>
      have helse := beq_iff_eq.mp helse
      refine .bind (walks_advance _) fun u s₅ h₅ => ?_
      obtain rfl := advance_ok (by rw [helse]; decide) h₅
      refine .bind (walks_expect _ _ _) fun u s₅ h₅ => ?_
      obtain ⟨hcolon, rfl⟩ := expect_ok (by decide) h₅
      refine .bind (walks_matchToken _ _) fun m s₅ h₅ => ?_
      obtain rfl := matchToken_ok (by decide) h₅
      exact .bind (walked_parseBlock fun s' h => hrest s' (.inr ⟨helse, hcolon, h⟩)) fun _ _ _ =>
        .bind (walks_setChildren _ (by simp [maxChildren]) _) fun _ _ _ => .pure _ _
    · exact .pure _ _

theorem walked_parseWhile (he : Walks expr) (hne : s.current.type ≠ .eof)
    (hs : ∀ n s₁ s', newNode .whileNode s.current.line (s.forward 1) = .ok n s₁ → HeaderCalls expr stmt s₁ s' →
      Walked W s' (stmt s')) : Walked W s (parseWhile fuel expr stmt s) := by
  refine .bind (walks_peek s) fun t s₁ h₁ => ?_
  obtain ⟨rfl, rfl⟩ := EStateM.Result.ok.inj h₁
  refine .bind (walks_advance s) fun u s₁ h₁ => ?_
  obtain rfl := advance_ok hne h₁
  refine .bind (walks_newNode _ _ _) fun n s₁ hnode => ?_
  exact .bind (walked_parseHeader he fun s' h => hs n s₁ s' hnode h) fun _ _ _ =>
    .bind (walks_setChildren _ (by simp [maxChildren]) _) fun _ _ _ => .pure _ _

theorem walked_parseFor (he : Walks expr) (hne : s.current.type ≠ .eof)
    (hs : ∀ n s₁ s', (s.forward 1).current.type = .ident → (s.forward 2).current.type = .kwIn →
      leaf .forNode s.current.line 0 (s.forward 1).current.strVal (s.forward 3) = .ok n s₁ →
      HeaderCalls expr stmt s₁ s' →
      Walked W s' (stmt s')) : Walked W s (parseFor fuel expr stmt s) := by
  refine .bind (walks_peek s) fun t s₁ h₁ => ?_
  obtain ⟨rfl, rfl⟩ := EStateM.Result.ok.inj h₁
  refine .bind (walks_advance s) fun u s₁ h₁ => ?_
  obtain rfl := advance_ok hne h₁
  rw [bind_ok (peek_apply (s.forward 1))]
  by_cases hident : (s.forward 1).current.type = .ident
  · rw [if_neg (not_not.mpr hident)]
    refine .bind (walks_advance _) fun u s₁ h₁ => ?_
    obtain rfl := advance_ok (by rw [hident]; decide) h₁
    refine .bind (walks_expect _ _ _) fun u s₁ h₁ => ?_
    obtain ⟨hin, rfl⟩ := expect_ok (by decide) h₁
    refine .bind (walks_leaf _ _ _ _ _) fun n s₁ hleaf => ?_
    exact .bind (walked_parseHeader he fun s' h => hs n s₁ s' hident hin hleaf h) fun _ _ _ =>
      .bind (walks_setChildren _ (by simp [maxChildren]) _) fun _ _ _ => .pure _ _
  · rw [if_pos hident]
    exact .bind (.fail _ _) fun _ _ => not_ok

/-- The node of a definition is open behind its name. -/
theorem Open.name {s₁ : Run}
    (hleaf : leaf .defNode s.current.line 0 (s.forward 1).current.strVal (s.forward 2) = .ok n s₁) :
    n = s.nodes.length ∧ s₁.current = (s.forward 2).current ∧ (s₁.forward 1).types = (s.forward 3).types ∧
      s₁.nodes.length = s.nodes.length + 1 ∧
      Open s 3 (.text .defNode (s.forward 1).current.strVal) [] (s₁.forward 1) := by
  obtain ⟨rfl, hg⟩ := leaf_ok hleaf
  have ho : Open s 2 (.text .defNode (s.forward 1).current.strVal) [] s₁ :=
    Open.single ((Grows.forward s 2).trans hg) rfl
  obtain ⟨new, hg₂⟩ := (ho.forward 1).grows
  refine ⟨rfl, ?_, ?_, hg.length, ho.forward 1⟩
  · rw [Run.current, Run.current, hg.tokens, hg.tokPos, Nat.add_zero]
  · rw [hg₂.types, (Grows.forward s 3).types]

/-- A block moves the cursor and puts nodes behind the others. -/
theorem grows_parseBlock {s₁ : Run} {body : Nat} (hb : Builds IsStmt stmt)
    (h : parseBlock fuel stmt (s.skip .newline) = .ok body s₁) : ∃ k new, Grows k new s s₁ := by
  obtain ⟨j, hj⟩ := skip_eq s .newline
  obtain ⟨k, new, t, hg, -, -⟩ := builds_parseBlock hb _ _ _ h
  rw [hj] at hg
  exact ⟨_, _, (Grows.forward s j).trans hg⟩

/-- A definition, from its first token on. -/
theorem walked_parseDef (hb : Builds IsStmt stmt) (ht : s.current.type = .kwDef)
    (hs : ∀ n s₁ s', DefHead fuel s n s₁ → BlockCalls stmt s₁ s' → Walked W s' (stmt s'))
    (hW : WideDef fuel stmt s → W) : Walked W s (parseDef fuel stmt s) := by
  refine .bind (walks_peek s) fun t s₁ h₁ => ?_
  obtain ⟨rfl, rfl⟩ := EStateM.Result.ok.inj h₁
  refine .bind (walks_advance s) fun u s₁ h₁ => ?_
  obtain rfl := advance_ok (by rw [ht]; decide) h₁
  rw [bind_ok (peek_apply (s.forward 1))]
  by_cases hident : (s.forward 1).current.type = .ident
  · rw [if_neg (not_not.mpr hident)]
    refine .bind (walks_advance _) fun u s₁ h₁ => ?_
    obtain rfl := advance_ok (by rw [hident]; decide) h₁
    refine .bind (walks_leaf _ _ _ _ _) fun n s₁ hleaf => ?_
    obtain ⟨rfl, hcurrent, hparams, hnodes, ho⟩ := Open.name hleaf
    refine .bind (walks_expect _ _ s₁) fun u s₂ h₂ => ?_
    obtain ⟨hlparen, rfl⟩ := expect_ok (by decide) h₂
    have hwide : _ → W := fun h => hW ⟨ht, hident, hcurrent ▸ hlparen, h⟩
    refine .bind (p := paramLoop s.nodes.length fuel)
      (walked_paramLoop ho (Nat.zero_le _) fun hcount hroom => ?_)
      fun u s₃ hloop => ?_
    · rw [List.length_nil, Nat.zero_add, hparams] at hcount
      rw [forward_nodes, hnodes, List.length_nil] at hroom
      exact hwide (.inl ⟨hcount, by omega⟩)
    obtain ⟨k, trees, ho₃, hcount, hle⟩ := paramLoop_count ho (Nat.zero_le _) hloop
    rw [List.length_nil, Nat.zero_add, hparams] at hcount
    refine .bind (walks_expect _ _ _) fun u s₄ h₄ => ?_
    obtain ⟨hrparen, rfl⟩ := expect_ok (by decide) h₄
    refine .bind (walks_expect _ _ _) fun u s₄ h₄ => ?_
    obtain ⟨hcolon, rfl⟩ := expect_ok (by decide) h₄
    refine .bind (walks_matchToken _ _) fun b s₄ h₄ => ?_
    obtain rfl := matchToken_ok (by decide) h₄
    have hhead : DefHead fuel s s.nodes.length ((s₃.forward 2).skip .newline) :=
      ⟨hident, s₁, s₃, hleaf, hlparen, hloop, hrparen, hcolon, rfl⟩
    refine .bind (walked_parseBlock fun s' h => hs _ _ s' hhead h) fun body s₅ h₅ => ?_
    obtain ⟨k', new, hg₅⟩ := grows_parseBlock hb h₅
    refine .bind (walked_addChild fun hfull => ?_) fun _ _ _ => .pure _ _
    rw [(ho₃.forward 2).childCount hg₅] at hfull
    exact hwide (.inr ⟨by omega, _, _, body, s₅, hhead, h₅⟩)
  · rw [if_pos hident]
    exact .bind (.fail _ _) fun _ _ => not_ok

theorem walked_parseStmt {s₀ : Run} (fuel : Nat) (hs : ParseCalls s₀ fuel s) :
    Walked (MeetsWideDef s₀) s (parseStmt fuel s) := by
  induction fuel generalizing s with
  | zero => exact .outOfFuel s
  | succ fuel ih =>
    have he := walks_parseExpr fuel
    have hcalls : ∀ s', StmtCalls fuel s s' → Walked (MeetsWideDef s₀) s' (parseStmt fuel s') :=
      fun s' h => ih (hs.inner h)
    rw [parseStmt, bind_ok (peek_apply s)]
    cases ht : s.current.type <;> simp only [StmtCalls, ht] at hcalls
    case kwReturn => exact walks_parseReturn he s
    case kwBreak => exact walks_parseJump _ s
    case kwContinue => exact walks_parseJump _ s
    case kwDef =>
      exact walked_parseDef (builds_parseStmt fuel) ht
        (fun n s₁ s' hhead hblock => hcalls s' ⟨n, s₁, hhead, hblock⟩)
        fun hwide => ⟨fuel, s, hs, hwide⟩
    case kwIf => exact walked_parseIf he (by rw [ht]; decide) hcalls
    case kwElif => exact walked_parseIf he (by rw [ht]; decide) hcalls
    case kwWhile =>
      exact walked_parseWhile he (by rw [ht]; decide) fun n s₁ s' hnode hheader =>
        hcalls s' ⟨n, s₁, hnode, hheader⟩
    case kwFor =>
      exact walked_parseFor he (by rw [ht]; decide) fun n s₁ s' hident hin hleaf hheader =>
        hcalls s' ⟨hident, hin, n, s₁, hleaf, hheader⟩
    case ident =>
      obtain ⟨b, hb, -⟩ := assignFollows_apply s
      refine .bind (.moved (k := 0) hb) fun b s₁ h₁ => ?_
      exact Walks.ite (walks_parseAssign he) (walks_parseExprStmt he) s₁
    all_goals exact walks_parseExprStmt he s

/-- The whole parse, from the state in which the array is empty. -/
theorem walked_gkParse (s : Run) : Walked (MeetsWideDef s) s.cleared (gkParse s) := by
  rw [gkParse_eq]
  refine .bind (walks_newNode _ _ _) fun root s₁ hroot => .bind (walks_skipNewlines _) fun u s₂ h₂ => ?_
  obtain ⟨-, rfl⟩ := EStateM.Result.ok.inj h₂
  exact .bind (walked_stmtLoop fun s' h => walked_parseStmt _ (.top hroot h)) fun _ _ _ => .pure _ _

/-! The tokens stay the same from call to call. -/

theorem Walks.tokens {a : α} (hp : Walks p) (h : p s = .ok a s') : s'.tokens = s.tokens := by
  have ht := (hp (W := True) s).state.tokens
  rwa [h, final_ok] at ht

theorem Builds.tokens {F : Lib.Tree Label → Prop} {q : GkM Nat} (hq : Builds F q) (h : q s = .ok n s') :
    s'.tokens = s.tokens := by
  obtain ⟨k, new, t, hg, -, -⟩ := hq _ _ _ h
  exact hg.tokens

@[simp] theorem skip_tokens (s : Run) (t : TokenType) : (s.skip t).tokens = s.tokens := by
  unfold Run.skip
  split <;> rfl

theorem LoopCalls.tokens {ends : List TokenType} {e : GkError} (hb : Builds IsStmt stmt)
    (h : LoopCalls stmt ends e n s s') : s'.tokens = s.tokens := by
  induction h with
  | here => rfl
  | next hne hst hadd hrest ih => exact ih.trans (((walks_addChecked _ _ _).tokens hadd).trans (hb.tokens hst))

theorem BlockCalls.tokens (hb : Builds IsStmt stmt) (h : BlockCalls stmt s s') : s'.tokens = s.tokens := by
  obtain ⟨-, n, s₁, hnode, hloop⟩ := h
  have h₁ := (walks_newNode _ _).tokens hnode
  exact (hloop.tokens hb).trans h₁

theorem HeaderCalls.tokens (he : Walks expr) (hb : Builds IsStmt stmt) (h : HeaderCalls expr stmt s s') :
    s'.tokens = s.tokens := by
  obtain ⟨c, s₁, hc, -, hblock⟩ := h
  have h₁ := he.tokens hc
  exact ((hblock.tokens hb).trans (skip_tokens _ _)).trans h₁

theorem IfCalls.tokens (he : Walks expr) (hb : Builds IsStmt stmt) (h : IfCalls fuel expr stmt s s') :
    s'.tokens = s.tokens := by
  obtain ⟨n, s₁, hnode, h⟩ := h
  have h₁ := (walks_newNode _ _).tokens hnode
  obtain hheader | ⟨c, b, s₂, s₃, hheader, hset, hrest⟩ := h
  · exact (hheader.tokens he hb).trans h₁
  · obtain ⟨s₄, hc, -, hblock⟩ := parseHeader_ok hheader
    have h₃ : s₃.tokens = s.tokens := calc
      s₃.tokens = s₂.tokens := by cases hset; rfl
      _ = ((s₄.forward 1).skip .newline).tokens := (builds_parseBlock hb).tokens hblock
      _ = s₄.tokens := skip_tokens _ _
      _ = s₁.tokens := he.tokens hc
      _ = s.tokens := h₁
    obtain ⟨-, rfl⟩ | ⟨-, -, hblock⟩ := hrest
    · exact h₃
    · exact ((hblock.tokens hb).trans (skip_tokens _ _)).trans h₃

theorem StmtCalls.tokens (h : StmtCalls fuel s s') : s'.tokens = s.tokens := by
  have he := walks_parseExpr fuel
  have hb := builds_parseStmt fuel
  unfold StmtCalls at h
  split at h
  · obtain ⟨n, s₁, ⟨-, s₂, s₃, hleaf, -, hloop, -, -, rfl⟩, hblock⟩ := h
    obtain ⟨rfl, -, -, -, ho⟩ := Open.name hleaf
    obtain ⟨k, trees, ho₃, -, -⟩ := paramLoop_count ho (Nat.zero_le _) hloop
    obtain ⟨new, hg⟩ := ho₃.grows
    exact ((hblock.tokens hb).trans (skip_tokens _ _)).trans hg.tokens
  · exact h.tokens he hb
  · exact h.tokens he hb
  · obtain ⟨n, s₁, hnode, hheader⟩ := h
    have h₁ := (walks_newNode _ _).tokens hnode
    exact (hheader.tokens he hb).trans h₁
  · obtain ⟨-, -, n, s₁, hleaf, hheader⟩ := h
    have h₁ := (walks_leaf _ _ _ _).tokens hleaf
    exact (hheader.tokens he hb).trans h₁
  · cases h

theorem ParseCalls.tokens {s₀ : Run} (h : ParseCalls s₀ fuel s) : s.tokens = s₀.tokens := by
  induction h with
  | top hroot hcall =>
    have h₁ := (walks_newNode _ _).tokens hroot
    exact (hcall.tokens (builds_parseStmt _)).trans h₁
  | inner _ hcall ih => exact hcall.tokens.trans ih

private theorem narrowDef_types (h : narrowDefs s.tokenTypes = true) : narrowDef s.types = true := by
  refine List.all_eq_true.mp h _ ((List.mem_tails _ _).mpr ?_)
  rw [Run.types, Run.ahead, Run.tokenTypes, List.map_drop]
  exact List.drop_suffix _ _

/-- Where all definitions are narrow there is none to come to that is not. -/
theorem not_meetsWideDef (hn : narrowDefs s.tokenTypes = true) : ¬ MeetsWideDef s := by
  rintro ⟨fuel, s', hcall, ht, hident, hlparen, hwide⟩
  have hcount : maxChildren ≤ paramCount (s'.forward 3).types := by
    obtain ⟨h, -⟩ | ⟨h, -⟩ := hwide
    · exact h.le
    · exact h.ge
  rw [Run.tokenTypes, ← hcall.tokens] at hn
  have hnarrow := narrowDef_types (s := s') hn
  rw [types_of_current (by rw [ht]; decide), types_of_current (by rw [hident]; decide),
    types_of_current (by change (s'.forward 2).current.type ≠ _; rw [hlparen]; decide)] at hnarrow
  change narrowDef (_ :: _ :: (s'.forward 2).current.type :: (s'.forward 3).types) = true at hnarrow
  rw [ht, hident, hlparen] at hnarrow
  have hlt : paramCount (s'.forward 3).types < maxChildren := by simpa [narrowDef] using hnarrow
  omega

/-- The state in front of the parser: these tokens and nothing else. -/
def lexedState (input : List (List UInt8)) (tokens : List Token) : Run :=
  GkState.start { freshState input with tokens := tokens }

/-- `def f(x): return x`. -/
def identityTokens : List Token :=
  [⟨.kwDef, 0, ascii "def", 1⟩, ⟨.ident, 0, ascii "f", 1⟩, ⟨.lparen, 0, [], 1⟩, ⟨.ident, 0, ascii "x", 1⟩,
   ⟨.rparen, 0, [], 1⟩, ⟨.colon, 0, [], 1⟩, ⟨.newline, 0, [], 1⟩, ⟨.indent, 0, [], 2⟩,
   ⟨.kwReturn, 0, ascii "return", 2⟩, ⟨.ident, 0, ascii "x", 2⟩, ⟨.newline, 0, [], 2⟩,
   ⟨.dedent, 0, [], 3⟩, ⟨.eof, 0, [], 3⟩]

end GeckoOS.Gk
