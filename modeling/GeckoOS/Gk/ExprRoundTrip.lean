import GeckoOS.Gk.ParserSteps

/-! The expression parser reads back what is printed with no more parentheses
than the table of precedences asks for. -/
namespace GeckoOS.Gk
open Lib

/-- What the parser reads of a token besides its line. -/
inductive Shape where
  | int (v : Int)
  | str (s : List UInt8)
  | name (s : List UInt8)
  | symbol (t : TokenType)
  deriving DecidableEq

def Token.shape (t : Token) : Shape :=
  match t.type with
  | .int => .int t.intVal
  | .str => .str t.strVal
  | .ident => .name t.strVal
  | ty => .symbol ty

/-- The rows of the table "Operator precedence (high to low)" below its first one,
which has the unary operators. -/
def precedenceRow : Nat → List TokenType
  | 1 => mulOps
  | 2 => addOps
  | 3 => cmpOps
  | 4 => [.and]
  | 5 => [.or]
  | _ => []

/-- The row of an operator. -/
def BinOp.row : BinOp → Nat
  | mul | div | mod => 1
  | add | sub => 2
  | eq | neq | lt | le | gt | ge => 3
  | and => 4
  | or => 5

def inParens (ts : List Shape) : List Shape := .symbol .lparen :: ts ++ [.symbol .rparen]

mutual
/-- The tokens of an expression where operators up to a row may stand bare. A left
operand may be of its operator's own row, a right operand may not. -/
def Expr.print : Expr → Nat → List Shape
  | .int v, _ => [.int v]
  | .str s, _ => [.str s]
  | .bool b, _ => [.symbol (if b then .kwTrue else .kwFalse)]
  | .var name, _ => [.name name]
  | .unop op e, _ => .symbol op.token :: e.print 0
  | .binop op l r, row =>
    let bare := l.print op.row ++ .symbol op.token :: r.print (op.row - 1)
    if op.row ≤ row then bare else inParens bare
  | .call name args, _ => .name name :: inParens (printArgs args)

def printArgs : List Expr → List Shape
  | [] => []
  | [e] => e.print 5
  | e :: e' :: es => e.print 5 ++ .symbol .comma :: printArgs (e' :: es)
end

mutual
/-- The number of nodes of an expression. -/
def Expr.size : Expr → Nat
  | .int _ | .str _ | .bool _ | .var _ => 1
  | .unop _ e => e.size + 1
  | .binop _ l r => l.size + r.size + 1
  | .call _ args => sizeArgs args + 1

def sizeArgs : List Expr → Nat
  | [] => 0
  | e :: es => e.size + sizeArgs es
end

mutual
/-- No call has more than GK_MAX_CHILDREN arguments. -/
def Expr.CallsFit : Expr → Prop
  | .int _ | .str _ | .bool _ | .var _ => True
  | .unop _ e => e.CallsFit
  | .binop _ l r => l.CallsFit ∧ r.CallsFit
  | .call _ args => args.length ≤ maxChildren ∧ argsFit args

def argsFit : List Expr → Prop
  | [] => True
  | e :: es => e.CallsFit ∧ argsFit es
end

/-- A token that can stand behind a complete expression and continue it. -/
def continuesExpr (t : TokenType) : Bool :=
  t == .lparen || t ∈ mulOps || t ∈ addOps || t ∈ cmpOps || t == .and || t == .or

/-- The same for the rows up to `row`. -/
private def Stops (row : Nat) (t : TokenType) : Prop := t ≠ .lparen ∧ ∀ j ≤ row, t ∉ precedenceRow j

/-- The parser for a row. -/
private def parseRow (fuel : Nat) : Nat → GkM Nat
  | 0 => parseUnary (parsePrimary fuel (parseExpr fuel)) fuel
  | row+1 => parseBinary (precedenceRow (row + 1)) fuel (parseRow fuel row)

private theorem parseExpr_succ (fuel : Nat) : parseExpr (fuel + 1) = parseRow fuel 5 := rfl

/-- From `s` the tokens `ts` are read, and the trees are what is added to the arena. -/
private structure ReadTo (s : Run) (ts : List Token) (trees : List (Lib.Tree Label)) (size : Nat)
  (roots : List Nat)
    (s' : Run) (new : List Node) : Prop where
  grows : Grows ts.length new s s'
  size_eq : new.length = size
  laid : Laid (cell s'.nodes) s.nodes.length trees roots s'.nodes.length

/-- `e` is printed at the cursor for this row, with room for its nodes. -/
private structure Printed (fuel row : Nat) (e : Expr) (s : Run) (ts rest : List Token) : Prop where
  shape : ts.map Token.shape = e.print row
  ahead : s.ahead = ts ++ rest
  fuel_le : ts.length ≤ fuel
  room : s.nodes.length + e.size ≤ maxNodes

private def Reads (fuel row : Nat) (e : Expr) : Prop :=
  ∀ s ts rest, Printed fuel row e s ts rest → Stops row (rest.headD eofToken).type →
    ∃ n s' new, parseRow fuel row s = .ok n s' ∧ ReadTo s ts [e.toTree] e.size [n] s' new

/-- The parser for a row arrives behind `e` with the loop still to go on. -/
private def Climbs (fuel row : Nat) (e : Expr) : Prop :=
  ∀ s ts rest, Printed fuel (row + 1) e s ts rest → Stops row (rest.headD eofToken).type →
    ∃ n s' new fuel', parseRow fuel (row + 1) s =
        binaryLoop (precedenceRow (row + 1)) (parseRow fuel row) fuel' n s' ∧
      fuel < fuel' + ts.length ∧ ReadTo s ts [e.toTree] e.size [n] s' new

variable {fuel row : Nat} {e l r : Expr} {op : BinOp} {s s' : Run} {ts rest : List Token}

private theorem Climbs.reads (h : Climbs fuel row e) : Reads fuel (row + 1) e := by
  intro s ts rest hp hs
  obtain ⟨n, s', new, fuel', hrun, hf, hr⟩ := h s ts rest hp ⟨hs.1, fun j hj => hs.2 j (by omega)⟩
  refine ⟨n, s', new, ?_, hr⟩
  have hfuel := hp.fuel_le
  obtain ⟨f, rfl⟩ : ∃ f, fuel' = f + 1 := ⟨fuel' - 1, by omega⟩
  have hcur : s'.current = rest.headD eofToken := by
    rw [current_headD, hr.grows.ahead, hp.ahead, List.drop_left]
  rw [hrun, binaryLoop, bind_ok (peek_apply s'), hcur, if_neg (hs.2 _ (Nat.le_refl _)), pure_apply]

private theorem Reads.climbs (h : Reads fuel row e) (hp : e.print (row + 1) = e.print row)
    (hne : e.print row ≠ []) :
    Climbs fuel row e := by
  intro s ts rest hpr hs
  have hpr' : Printed fuel row e s ts rest := ⟨hpr.shape.trans hp, hpr.ahead, hpr.fuel_le, hpr.room⟩
  obtain ⟨n, s', new, hrun, hr⟩ := h s ts rest hpr' hs
  refine ⟨n, s', new, fuel, bind_ok hrun, ?_, hr⟩
  have hts : ts ≠ [] := by
    rintro rfl
    exact hne hpr'.shape.symm
  have := List.length_pos_iff.mpr hts
  omega

theorem type_of_shape {t : Token} {ty : TokenType} (h : t.shape = .symbol ty) : t.type = ty := by
  unfold Token.shape at h
  split at h
  · cases h
  · cases h
  · cases h
  · exact Shape.symbol.inj h

theorem name_of_shape {t : Token} {name : List UInt8} (h : t.shape = .name name) :
    t.type = .ident ∧ t.strVal = name := by
  unfold Token.shape at h
  split at h
  · cases h
  · cases h
  · next hty => exact ⟨hty, Shape.name.inj h⟩
  · cases h

private theorem row_unique (op : BinOp) : ∀ j < 6, op.token ∈ precedenceRow j → j = op.row := by
  cases op <;> decide

private theorem token_mem_row (op : BinOp) : op.token ∈ precedenceRow op.row := by
  cases op <;> decide

private theorem row_pos (op : BinOp) : 1 ≤ op.row ∧ op.row ≤ 5 := by
  cases op <;> decide

private theorem token_stops (op : BinOp) (h : row < op.row) : Stops row op.token := by
  refine ⟨by cases op <;> decide, fun j hj hm => ?_⟩
  have := row_unique op j (by have := row_pos op; omega) hm
  omega

private theorem token_ne_eof (op : BinOp) : op.token ≠ .eof := by
  cases op <;> decide

/-- A reading goes on behind another one. -/
private theorem ReadTo.append {ts ts' : List Token} {trees trees' : List (Lib.Tree Label)} {k k' : Nat}
    {roots roots' : List Nat} {s'' : Run} {new new' : List Node} (h : ReadTo s ts trees k roots s' new)
    (h' : ReadTo s' ts' trees' k' roots' s'' new') :
    ReadTo s (ts ++ ts') (trees ++ trees') (k + k') (roots ++ roots') s'' (new ++ new') where
  grows := by
    rw [List.length_append]
    exact h.grows.trans h'.grows
  size_eq := by rw [List.length_append, h.size_eq, h'.size_eq]
  laid := (h'.grows.laid h.laid (Nat.le_refl _)).append h'.laid

private theorem ReadTo.ahead {trees : List (Lib.Tree Label)} {k : Nat} {roots : List Nat} {new : List Node}
    (h : ReadTo s ts trees k roots s' new) (hs : s.ahead = ts ++ rest) : s'.ahead = rest := by
  rw [h.grows.ahead, hs, List.drop_left]

/-- A token that belongs to no tree. -/
private theorem ReadTo.token (s : Run) (t : Token) : ReadTo s [t] [] 0 [] (s.forward 1) [] where
  grows := .forward s 1
  size_eq := rfl
  laid := .nil _

/-- An operator node over all that was read. -/
private theorem ReadTo.operator {trees : List (Lib.Tree Label)} {k : Nat} {roots : List Nat} {new : List Node}
    (h : ReadTo s ts trees k roots s' new) (type : NodeType) (t : Token) (hroom : s'.nodes.length < maxNodes) :
    ∃ n s'' new', operatorNode type t roots s' = .ok n s'' ∧
      ReadTo s ts [.node (.operator type t.type) trees] (k + 1) [n] s'' new' := by
  obtain ⟨s'', hrun, hg⟩ := operatorNode_room type t roots hroom
  refine ⟨_, s'', _, hrun, h.grows.trans hg, ?_, hg.laid_post h.laid⟩
  rw [List.length_append, h.size_eq]
  rfl

private theorem Climbs.binop (hop : op.row = row + 1) (hl : Climbs fuel row l) (hr : Reads fuel row r) :
    Climbs fuel row (.binop op l r) := by
  intro s ts rest hp hs
  obtain ⟨hshape, hahead, hfuel, hroom⟩ := hp
  rw [Expr.print, if_pos (Nat.le_of_eq hop), hop] at hshape
  obtain ⟨tl, ts', rfl, hsl, hs'⟩ := List.map_eq_append_iff.mp hshape
  obtain ⟨t, tr, rfl, hst, hsr⟩ := List.map_eq_cons_iff.mp hs'
  have htype := type_of_shape hst
  rw [Expr.size] at hroom
  simp only [List.length_append, List.length_cons] at hfuel
  -- the left operand, up to the operator
  have hstops : Stops row ((t :: tr ++ rest).headD eofToken).type := htype ▸ token_stops op (by omega)
  obtain ⟨nl, s₁, newl, fuel₁, hrun₁, hf₁, hr₁⟩ :=
    hl s tl (t :: tr ++ rest) ⟨hsl, by rw [hahead, List.append_assoc], by omega, by omega⟩ hstops
  obtain ⟨f, rfl⟩ : ∃ f, fuel₁ = f + 1 := ⟨fuel₁ - 1, by omega⟩
  have hahead₁ : s₁.ahead = t :: tr ++ rest := hr₁.ahead (by rw [hahead, List.append_assoc])
  have hcur : s₁.current = t := current_of_ahead hahead₁
  have hlen₁ : s₁.nodes.length = s.nodes.length + l.size := by rw [hr₁.grows.length, hr₁.size_eq]
  -- the right operand
  obtain ⟨nr, s₂, newr, hrun₂, hr₂⟩ := hr (s₁.forward 1) tr rest
    ⟨hsr, by rw [ahead_forward, hahead₁]; rfl, by omega, by rw [forward_nodes, hlen₁]; omega⟩ hs
  have hall := (hr₁.append (ReadTo.token s₁ t)).append hr₂
  have hlen₂ : s₂.nodes.length = s.nodes.length + (l.size + 0 + r.size) := by
    rw [hall.grows.length, hall.size_eq]
  obtain ⟨n, s₃, new, hrun₃, hr₃⟩ := hall.operator .binop t (by omega)
  refine ⟨n, s₃, new, f, ?_, ?_, ?_⟩
  · have hmem : t.type ∈ precedenceRow (row + 1) := by
      rw [htype, ← hop]
      exact token_mem_row op
    have hadv : advance s₁ = .ok () (s₁.forward 1) := advance_apply (by rw [hcur, htype]; exact token_ne_eof op)
    rw [hrun₁, binaryLoop, bind_ok (peek_apply s₁), hcur, if_pos hmem, bind_ok hadv, bind_ok hrun₂]
    exact bind_ok hrun₃
  · simp only [List.length_append, List.length_cons]
    omega
  · rw [htype] at hr₃
    simpa only [List.append_assoc, List.singleton_append, Expr.size, Expr.toTree, Nat.add_zero] using hr₃

/-- The parser of the first row, with a fuel of its own for the operators. -/
private def ReadsUnary (fuel fuel' : Nat) (e : Expr) : Prop :=
  ∀ s ts rest, Printed fuel 0 e s ts rest → ts.length ≤ fuel' → Stops 0 (rest.headD eofToken).type →
    ∃ n s' new, parseUnary (parsePrimary fuel (parseExpr fuel)) fuel' s = .ok n s' ∧
      ReadTo s ts [e.toTree] e.size [n] s' new

private theorem parseUnary_primary {primary : GkM Nat} {fuel : Nat} (hf : 0 < fuel)
    (h : s.current.type ≠ .minus ∧ s.current.type ≠ .not) : parseUnary primary fuel s = primary s := by
  obtain ⟨f, rfl⟩ := Nat.exists_eq_succ_of_ne_zero (Nat.ne_of_gt hf)
  rw [parseUnary, bind_ok (peek_apply s), if_neg (by simp [h])]

/-- An expression of one token. -/
private theorem readsUnary_leaf {shape : Shape} {type : NodeType} {v : Int} {str : List UInt8}
    {fuel fuel' : Nat}
    (hprint : e.print 0 = [shape]) (hsize : e.size = 1) (htree : e.toTree = .node ⟨type, v, str, .int⟩ [])
    (hrun : ∀ s : Run, s.current.shape = shape → Stops 0 (s.forward 1).current.type →
      s.current.type ≠ .minus ∧ s.current.type ≠ .not ∧
      parsePrimary fuel (parseExpr fuel) s = leaf type s.current.line v str (s.forward 1)) :
    ReadsUnary fuel fuel' e := by
  intro s ts rest hp hf hs
  obtain ⟨hshape, hahead, -, hroom⟩ := hp
  rw [hprint] at hshape
  obtain ⟨t, ts', rfl, ht, hnil⟩ := List.map_eq_cons_iff.mp hshape
  obtain rfl := List.map_eq_nil_iff.mp hnil
  have hcur : s.current = t := current_of_ahead hahead
  have hnext : (s.forward 1).current = rest.headD eofToken := by
    rw [current_headD, ahead_forward, hahead]
    rfl
  obtain ⟨hminus, hnot, hprim⟩ := hrun s (by rw [hcur, ht]) (by rw [hnext]; exact hs)
  obtain ⟨s', hleaf, hg⟩ := leaf_room (s := s.forward 1) type t.line v str (by rw [forward_nodes]; omega)
  refine ⟨s.nodes.length, s', _, ?_, (Grows.forward s 1).trans hg, ?_, ?_⟩
  · rw [parseUnary_primary hf ⟨hminus, hnot⟩, hprim, hcur, hleaf, forward_nodes]
  · rw [hsize]
    rfl
  · rw [htree]
    exact hg.laid_post (.nil _)

private theorem ReadsUnary.unop {fuel fuel' : Nat} {op : UnOp} (h : ReadsUnary fuel fuel' e) :
    ReadsUnary fuel (fuel' + 1) (.unop op e) := by
  intro s ts rest hp hf hs
  obtain ⟨hshape, hahead, hfuel, hroom⟩ := hp
  rw [Expr.print] at hshape
  obtain ⟨t, te, rfl, ht, hte⟩ := List.map_eq_cons_iff.mp hshape
  have htype := type_of_shape ht
  have hcur : s.current = t := current_of_ahead hahead
  rw [Expr.size] at hroom
  rw [List.length_cons] at hfuel hf
  obtain ⟨n, s₁, new, hrun, hr⟩ := h (s.forward 1) te rest
    ⟨hte, by rw [ahead_forward, hahead]; rfl, by omega, by rw [forward_nodes]; omega⟩ (by omega) hs
  have hall := (ReadTo.token s t).append hr
  have hlen : s₁.nodes.length = s.nodes.length + (0 + e.size) := by rw [hall.grows.length, hall.size_eq]
  obtain ⟨n', s', new', hrun', hr'⟩ := hall.operator .unop t (by omega)
  refine ⟨n', s', new', ?_, ?_⟩
  · have hop : t.type = .minus ∨ t.type = .not := by
      rw [htype]
      cases op <;> decide
    have hadv : advance s = .ok () (s.forward 1) := advance_apply (by rw [hcur, htype]; cases op <;> decide)
    rw [parseUnary, bind_ok (peek_apply s), hcur, if_pos hop, bind_ok hadv, bind_ok hrun]
    exact hrun'
  · rw [htype] at hr'
    simpa only [List.singleton_append, List.nil_append, Expr.size, Expr.toTree, Nat.zero_add] using hr'

/-- What stands in parentheses is read by a parser of its own. -/
private theorem readsUnary_parens {fuel fuel' : Nat} (hprint : e.print 0 = inParens (e.print 5))
    (h : ∀ fuel, Reads fuel 5 e) : ReadsUnary fuel fuel' e := by
  intro s ts rest hp hf hs
  obtain ⟨hshape, hahead, hfuel, hroom⟩ := hp
  rw [hprint, inParens, List.cons_append] at hshape
  obtain ⟨t, ts', rfl, ht, hts'⟩ := List.map_eq_cons_iff.mp hshape
  obtain ⟨te, tr, rfl, hte, htr⟩ := List.map_eq_append_iff.mp hts'
  obtain ⟨t', tnil, rfl, ht', hnil⟩ := List.map_eq_cons_iff.mp htr
  obtain rfl := List.map_eq_nil_iff.mp hnil
  have htype := type_of_shape ht
  have htype' := type_of_shape ht'
  have hcur : s.current = t := current_of_ahead hahead
  simp only [List.length_cons, List.length_append, List.length_nil] at hfuel hf
  obtain ⟨f, rfl⟩ : ∃ f, fuel = f + 1 := ⟨fuel - 1, by omega⟩
  have hahead₁ : (s.forward 1).ahead = te ++ t' :: rest := by
    rw [ahead_forward, hahead]
    simp
  have hstops : Stops 5 ((t' :: rest).headD eofToken).type := by
    rw [List.headD_cons, htype']
    exact ⟨by decide, by decide⟩
  obtain ⟨n, s₁, new, hrun, hr⟩ := h f (s.forward 1) te (t' :: rest) ⟨hte, hahead₁, by omega, hroom⟩ hstops
  have hcur₁ : s₁.current = t' := current_of_ahead (hr.ahead hahead₁)
  have hall := ((ReadTo.token s t).append hr).append (ReadTo.token s₁ t')
  refine ⟨n, s₁.forward 1, new, ?_, ?_⟩
  · have hadv : advance s = .ok () (s.forward 1) := advance_apply (by rw [hcur, htype]; decide)
    have hne : s.current.type ≠ .minus ∧ s.current.type ≠ .not := by rw [hcur, htype]; decide
    rw [parseUnary_primary (by omega) hne, parsePrimary, bind_ok (peek_apply s), hcur]
    simp only [htype]
    rw [bind_ok hadv, parseExpr_succ, bind_ok hrun, bind_ok (expect_hit (by rw [hcur₁, htype']) (by decide) _),
      pure_apply]
  · simpa only [List.singleton_append, List.nil_append, List.append_nil, Nat.zero_add, Nat.add_zero,
      List.cons_append] using hall

private theorem print_head : (e : Expr) → (row : Nat) →
    ∃ sh shs, e.print row = sh :: shs ∧ sh ≠ .symbol .rparen ∧ sh ≠ .symbol .eof
  | .int v, row => ⟨_, _, rfl, by simp, by simp⟩
  | .str v, row => ⟨_, _, rfl, by simp, by simp⟩
  | .bool b, row => ⟨_, _, rfl, by cases b <;> decide, by cases b <;> decide⟩
  | .var name, row => ⟨_, _, rfl, by simp, by simp⟩
  | .unop op e, row => ⟨_, _, rfl, by cases op <;> decide, by cases op <;> decide⟩
  | .call name args, row => ⟨_, _, rfl, by simp, by simp⟩
  | .binop op l r, row => by
    obtain ⟨sh, shs, hl, hne⟩ := print_head l op.row
    rw [Expr.print]
    split
    · exact ⟨sh, _, by rw [hl]; rfl, hne⟩
    · exact ⟨_, _, rfl, by decide, by decide⟩

private theorem argLoop_end {expr : GkM Nat} {n f : Nat} (hf : 0 < f) (h : s.current.type = .rparen) :
    argLoop expr n f s = .ok () s := by
  obtain ⟨f, rfl⟩ := Nat.exists_eq_succ_of_ne_zero (Nat.ne_of_gt hf)
  rw [argLoop, bind_ok (check_apply _ s), bind_ok (check_apply _ s), h]
  rfl

private theorem argLoop_step {expr : GkM Nat} {n f arg : Nat} {s₁ s₂ : Run} (h : s.current.type ≠ .rparen)
    (h' : s.current.type ≠ .eof) (hrun : expr s = .ok arg s₁)
    (hadd : addChecked n arg .tooManyArguments s₁ = .ok () s₂) :
    argLoop expr n (f + 1) s = (do if ← matchToken .comma then argLoop expr n f) s₂ := by
  rw [argLoop, bind_ok (check_apply _ s), bind_ok (check_apply _ s), if_pos (by simp [h, h']), bind_ok hrun]
  exact bind_ok hadd

/-- The tokens of the first argument and those behind it. -/
private theorem printArgs_cons {e : Expr} {es : List Expr} {ts : List Token}
    (hts : ts.map Token.shape = printArgs (e :: es)) :
    ∃ te tr, ts = te ++ tr ∧ te.map Token.shape = e.print 5 ∧
      ((es = [] ∧ tr = []) ∨ ∃ t tr', tr = t :: tr' ∧ t.type = .comma ∧
        tr'.map Token.shape = printArgs es) := by
  cases es with
  | nil => exact ⟨ts, [], (List.append_nil ts).symm, hts, .inl ⟨rfl, rfl⟩⟩
  | cons e' es =>
    rw [printArgs] at hts
    obtain ⟨te, tr, rfl, hte, htr⟩ := List.map_eq_append_iff.mp hts
    obtain ⟨t, tr', rfl, ht, htr'⟩ := List.map_eq_cons_iff.mp htr
    exact ⟨te, _, rfl, hte, .inr ⟨t, tr', rfl, type_of_shape ht, htr'⟩⟩

/-- An expression does not begin with a token that ends the arguments. -/
private theorem current_of_print {e : Expr} {s : Run} {te rest : List Token}
    (hte : te.map Token.shape = e.print 5)
    (ha : s.ahead = te ++ rest) : s.current.type ≠ .rparen ∧ s.current.type ≠ .eof := by
  obtain ⟨sh, shs, hhead, hne, hne'⟩ := print_head e 5
  rw [hhead] at hte
  obtain ⟨t, te', rfl, ht, -⟩ := List.map_eq_cons_iff.mp hte
  rw [current_of_ahead ha]
  exact ⟨fun h => hne (by rw [← ht, Token.shape, h]), fun h => hne' (by rw [← ht, Token.shape, h])⟩

/-- The arguments of an open call, up to the parenthesis behind them. -/
private theorem argLoop_reads {args : List Expr} (hargs : ∀ e ∈ args, ∀ fuel, Reads fuel 5 e) :
    ∀ {fuel f k : Nat} {s₀ s : Run} {label : Label} {trees : List (Lib.Tree Label)} {ts rest : List Token},
      Open s₀ k label trees s → ts.map Token.shape = printArgs args → s.ahead = ts ++ rest →
      (rest.headD eofToken).type = .rparen → ts.length < fuel → ts.length < f →
      trees.length + args.length ≤ maxChildren → s.nodes.length + sizeArgs args ≤ maxNodes →
      ∃ s', argLoop (parseExpr fuel) s₀.nodes.length f s = .ok () s' ∧
        Open s₀ (k + ts.length) label (trees ++ exprTrees args) s' ∧
        s'.nodes.length = s.nodes.length + sizeArgs args := by
  induction args with
  | nil =>
    intro fuel f k s₀ s label trees ts rest ho hts ha hr hfuel hf hc hn
    obtain rfl := List.map_eq_nil_iff.mp hts
    have hcur : s.current.type = .rparen := by rw [current_headD, ha]; exact hr
    exact ⟨s, argLoop_end (by omega) hcur, by simpa [exprTrees] using ho, rfl⟩
  | cons e es ih =>
    intro fuel f k s₀ s label trees ts rest ho hts ha hr hfuel hf hc hn
    obtain ⟨f, rfl⟩ : ∃ f', f = f' + 1 := ⟨f - 1, by omega⟩
    obtain ⟨fuel, rfl⟩ : ∃ fuel', fuel = fuel' + 1 := ⟨fuel - 1, by omega⟩
    obtain ⟨te, tr, rfl, hte, htr⟩ := printArgs_cons hts
    have hnext : ((tr ++ rest).headD eofToken).type = .rparen ∨
      ((tr ++ rest).headD eofToken).type = .comma := by
      obtain ⟨-, rfl⟩ | ⟨t, tr', rfl, ht, htr'⟩ := htr
      · exact .inl hr
      · exact .inr ht
    have hstops : Stops 5 ((tr ++ rest).headD eofToken).type := by
      obtain h | h := hnext <;> rw [h] <;> exact ⟨by decide, by decide⟩
    rw [sizeArgs] at hn
    rw [List.length_append] at hfuel hf
    rw [List.append_assoc] at ha
    obtain ⟨n, s₁, new, hrun, hread⟩ :=
      hargs e List.mem_cons_self fuel s te (tr ++ rest) ⟨hte, ha, by omega, by omega⟩ hstops
    have hlen₁ : s₁.nodes.length = s.nodes.length + e.size := by rw [hread.grows.length, hread.size_eq]
    obtain ⟨s₂, hadd, hopen, hlen₂⟩ := ho.addChecked_room hread.grows hread.laid
      (by rw [List.length_cons] at hc; omega) .tooManyArguments
    have hcur := current_of_print hte ha
    have hahead₂ : s₂.ahead = tr ++ rest := by
      rw [hopen.ahead, ← List.drop_drop, ← ho.ahead, ha, List.drop_left]
    rw [← parseExpr_succ] at hrun
    rw [argLoop_step hcur.1 hcur.2 hrun hadd]
    obtain ⟨rfl, rfl⟩ | ⟨t, tr', rfl, ht, htr'⟩ := htr
    · have hmiss : s₂.current.type ≠ .comma := by
        rw [current_headD, hahead₂, List.nil_append, hr]
        decide
      refine ⟨s₂, bind_ok (matchToken_miss hmiss), by simpa [exprTrees] using hopen, ?_⟩
      rw [hlen₂, hlen₁, sizeArgs, sizeArgs]
      omega
    · have hhit : s₂.current.type = .comma := by rw [current_of_ahead hahead₂, ht]
      have hahead₃ : (s₂.forward 1).ahead = tr' ++ rest := by
        rw [ahead_forward, hahead₂]
        rfl
      rw [List.length_cons] at hfuel hf hc
      obtain ⟨s', hloop, hopen', hlen'⟩ :=
        ih (fun x hx => hargs x (List.mem_cons_of_mem _ hx)) (hopen.forward 1)
        htr' hahead₃ hr (by omega : tr'.length < fuel + 1) (by omega : tr'.length < f)
        (by rw [List.length_append, List.length_singleton]; omega) (by rw [forward_nodes]; omega)
      refine ⟨s', ?_, ?_, ?_⟩
      · rw [bind_ok (matchToken_hit hhit (by decide))]
        exact hloop
      · have hk : k + te.length + 1 + tr'.length = k + (te ++ t :: tr').length := by
          rw [List.length_append, List.length_cons]
          omega
        rw [hk] at hopen'
        simpa [exprTrees] using hopen'
      · rw [hlen', forward_nodes, hlen₂, hlen₁, sizeArgs]
        omega

private theorem readsUnary_call {fuel fuel' : Nat} {name : List UInt8} {args : List Expr}
    (hargs : ∀ e ∈ args, ∀ fuel, Reads fuel 5 e) (hfit : args.length ≤ maxChildren) :
    ReadsUnary fuel fuel' (.call name args) := by
  intro s ts rest hp hf hs
  obtain ⟨hshape, hahead, hfuel, hroom⟩ := hp
  rw [Expr.print, inParens, List.cons_append] at hshape
  obtain ⟨t, ts', rfl, ht, hts'⟩ := List.map_eq_cons_iff.mp hshape
  obtain ⟨t₁, ts'', rfl, ht₁, hts''⟩ := List.map_eq_cons_iff.mp hts'
  obtain ⟨ta, tr, rfl, hta, htr⟩ := List.map_eq_append_iff.mp hts''
  obtain ⟨t₂, tnil, rfl, ht₂, hnil⟩ := List.map_eq_cons_iff.mp htr
  obtain rfl := List.map_eq_nil_iff.mp hnil
  obtain ⟨htype, hname⟩ := name_of_shape ht
  have htype₁ := type_of_shape ht₁
  have htype₂ := type_of_shape ht₂
  simp only [List.length_cons, List.length_append, List.length_nil] at hfuel hf
  rw [Expr.size] at hroom
  have hcur : s.current = t := current_of_ahead hahead
  have hahead₁ : (s.forward 1).ahead = t₁ :: (ta ++ [t₂]) ++ rest := by
    rw [ahead_forward, hahead]
    rfl
  have hcur₁ : (s.forward 1).current = t₁ := current_of_ahead hahead₁
  have hahead₂ : ((s.forward 1).forward 1).ahead = ta ++ t₂ :: rest := by
    rw [ahead_forward, hahead₁]
    simp
  obtain ⟨s₃, hleaf, hg⟩ := leaf_room (s := (s.forward 1).forward 1) (callType name) t.line 0 name
    (by rw [forward_nodes, forward_nodes]; omega)
  have hopen : Open s 2 (.text (callType name) name) [] s₃ :=
    Open.single (((Grows.forward s 1).trans (Grows.forward _ 1)).trans hg) rfl
  have hahead₃ : s₃.ahead = ta ++ t₂ :: rest := by rw [hg.ahead, hahead₂, List.drop_zero]
  obtain ⟨s₄, hloop, hopen₄, hlen₄⟩ := argLoop_reads hargs hopen hta hahead₃ htype₂
    (by omega : ta.length < fuel) (by omega : ta.length < fuel) (by simpa using hfit)
      (by rw [hg.length]; simp only [forward_nodes, List.length_singleton]; omega)
  have hahead₄ : s₄.ahead = t₂ :: rest := by
    have hdrop : 2 + ta.length = 1 + (1 + ta.length) := by omega
    rw [hopen₄.ahead, hdrop, ← List.drop_drop, ← ahead_forward, ← List.drop_drop, ← ahead_forward, hahead₂,
      List.drop_left]
  have hcur₄ : s₄.current = t₂ := current_of_ahead hahead₄
  have hclosed := hopen₄.forward 1
  obtain ⟨new, hgrows⟩ := hclosed.grows
  refine ⟨s.nodes.length, s₄.forward 1, new, ?_, ?_, ?_, ?_⟩
  · have hadv : advance s = .ok () (s.forward 1) := advance_apply (by rw [hcur, htype]; decide)
    have hadv₁ : advance (s.forward 1) = .ok () ((s.forward 1).forward 1) :=
      advance_apply (by rw [hcur₁, htype₁]; decide)
    have hne : s.current.type ≠ .minus ∧ s.current.type ≠ .not := by rw [hcur, htype]; decide
    rw [parseUnary_primary (by omega) hne, parsePrimary, bind_ok (peek_apply s), hcur]
    simp only [htype]
    rw [bind_ok hadv, bind_ok (check_apply _ _), hcur₁, htype₁, if_pos (by decide), bind_ok hadv₁, hname,
      bind_ok hleaf, forward_nodes, forward_nodes, bind_ok hloop,
      bind_ok (expect_hit (by rw [hcur₄, htype₂]) (by decide) _), pure_apply]
  · have hk : (t :: t₁ :: (ta ++ [t₂])).length = 2 + ta.length + 1 := by
      simp only [List.length_cons, List.length_append, List.length_nil]
      omega
    rw [hk]
    exact hgrows
  · have hlen := hgrows.length
    have hlen₃ := hg.length
    simp only [forward_nodes, List.length_singleton] at hlen hlen₃
    rw [Expr.size]
    omega
  · rw [Expr.toTree]
    exact hclosed.close

private theorem ReadsUnary.reads (h : ReadsUnary fuel fuel e) : Reads fuel 0 e :=
  fun s ts rest hp hs => h s ts rest hp hp.fuel_le hs

private theorem print_ne_nil (e : Expr) (row : Nat) : e.print row ≠ [] := by
  obtain ⟨sh, shs, h, -⟩ := print_head e row
  rw [h]
  exact List.cons_ne_nil _ _

private theorem Reads.up {row₀ : Nat} (h : Reads fuel row₀ e) (hle : row₀ ≤ row)
    (hsame : ∀ j, row₀ ≤ j → j < row → e.print (j + 1) = e.print j) : Reads fuel row e := by
  induction row, hle using Nat.le_induction with
  | base => exact h
  | succ row hle ih =>
    have hrow := ih fun j h₁ h₂ => hsame j h₁ (Nat.lt_succ_of_lt h₂)
    exact (hrow.climbs (hsame row hle (Nat.lt_succ_self row)) (print_ne_nil e row)).reads

/-- All that is to be known about an expression. -/
private structure ReadsAll (e : Expr) : Prop where
  unary : ∀ fuel fuel', ReadsUnary fuel fuel' e
  reads : ∀ fuel row, Reads fuel row e
  climbs : ∀ fuel row, Climbs fuel row e

private theorem readsAll_flat (hflat : ∀ row, e.print (row + 1) = e.print row)
    (h : ∀ fuel fuel', ReadsUnary fuel fuel' e) : ReadsAll e := by
  have hreads : ∀ fuel row, Reads fuel row e := fun fuel row =>
    (h fuel fuel).reads.up (Nat.zero_le row) fun j _ _ => hflat j
  exact ⟨h, hreads, fun fuel row => (hreads fuel row).climbs (hflat row) (print_ne_nil e row)⟩

private theorem readsAll_binop (hl : ReadsAll l) (hr : ReadsAll r) : ReadsAll (.binop op l r) := by
  obtain ⟨hpos, htop⟩ := row_pos op
  obtain ⟨row₀, hop⟩ : ∃ row₀, op.row = row₀ + 1 := ⟨op.row - 1, by omega⟩
  have hbare : ∀ j, op.row ≤ j → (Expr.binop op l r).print (j + 1) = (Expr.binop op l r).print j := by
    intro j hj
    rw [Expr.print, Expr.print, if_pos hj, if_pos (Nat.le_succ_of_le hj)]
  have hparens : ∀ j, j + 1 < op.row → (Expr.binop op l r).print (j + 1) = (Expr.binop op l r).print j := by
    intro j hj
    rw [Expr.print, Expr.print, if_neg (by omega), if_neg (by omega)]
  have hown : ∀ fuel, Climbs fuel row₀ (.binop op l r) := fun fuel =>
    .binop hop (hl.climbs fuel row₀) (hr.reads fuel row₀)
  have hhigh : ∀ fuel row, op.row ≤ row → Reads fuel row (.binop op l r) := fun fuel row hrow =>
    (hown fuel).reads.up (by omega) fun j hj _ => hbare j (by omega)
  have hunary : ∀ fuel fuel', ReadsUnary fuel fuel' (.binop op l r) := fun fuel fuel' => by
    refine readsUnary_parens ?_ fun fuel => hhigh fuel 5 htop
    rw [Expr.print, Expr.print, if_neg (by omega), if_pos htop]
  have hreads : ∀ fuel row, Reads fuel row (.binop op l r) := by
    intro fuel row
    obtain hrow | hrow : op.row ≤ row ∨ row < op.row := by omega
    · exact hhigh fuel row hrow
    · exact (hunary fuel fuel).reads.up (Nat.zero_le row) fun j _ hj => hparens j (by omega)
  refine ⟨hunary, hreads, fun fuel row => ?_⟩
  obtain rfl | hne := eq_or_ne row row₀
  · exact hown fuel
  · refine (hreads fuel row).climbs ?_ (print_ne_nil _ row)
    obtain h | h : op.row ≤ row ∨ row + 1 < op.row := by omega
    · exact hbare row h
    · exact hparens row h

/-- The tokens that are an expression on their own. -/
private theorem primary_leaf {type : NodeType} {v : Int} {str : List UInt8}
    (hrun : parsePrimary fuel (parseExpr fuel) s = (do advance; leaf type s.current.line v str : GkM Nat) s)
    (h : s.current.type ∉ [TokenType.eof, .minus, .not]) :
    s.current.type ≠ .minus ∧ s.current.type ≠ .not ∧
      parsePrimary fuel (parseExpr fuel) s = leaf type s.current.line v str (s.forward 1) := by
  simp only [List.mem_cons, List.not_mem_nil, or_false, not_or] at h
  refine ⟨h.2.1, h.2.2, ?_⟩
  rw [hrun, bind_ok (advance_apply h.1)]

private theorem readsAll_int (v : Int) : ReadsAll (.int v) := by
  refine readsAll_flat (fun _ => rfl) fun fuel fuel' => readsUnary_leaf rfl rfl rfl fun s h _ => ?_
  obtain ⟨htype, hv⟩ : s.current.type = .int ∧ s.current.intVal = v := by
    unfold Token.shape at h
    split at h
    · next hty => exact ⟨hty, Shape.int.inj h⟩
    all_goals cases h
  refine primary_leaf ?_ (by rw [htype]; decide)
  rw [parsePrimary, bind_ok (peek_apply s)]
  simp only [htype, hv]

private theorem readsAll_str (str : List UInt8) : ReadsAll (.str str) := by
  refine readsAll_flat (fun _ => rfl) fun fuel fuel' => readsUnary_leaf rfl rfl rfl fun s h _ => ?_
  obtain ⟨htype, hv⟩ : s.current.type = .str ∧ s.current.strVal = str := by
    unfold Token.shape at h
    split at h
    · cases h
    · next hty => exact ⟨hty, Shape.str.inj h⟩
    all_goals cases h
  refine primary_leaf ?_ (by rw [htype]; decide)
  rw [parsePrimary, bind_ok (peek_apply s)]
  simp only [htype, hv]

private theorem readsAll_bool (b : Bool) : ReadsAll (.bool b) := by
  refine readsAll_flat (fun _ => rfl) fun fuel fuel' => readsUnary_leaf rfl rfl rfl fun s h _ => ?_
  have htype := type_of_shape h
  refine primary_leaf ?_ (by rw [htype]; cases b <;> decide)
  rw [parsePrimary, bind_ok (peek_apply s)]
  cases b <;> simp only [htype] <;> rfl

private theorem readsAll_var (name : List UInt8) : ReadsAll (.var name) := by
  refine readsAll_flat (fun _ => rfl) fun fuel fuel' => readsUnary_leaf rfl rfl rfl fun s h hs => ?_
  obtain ⟨htype, hname⟩ := name_of_shape h
  have hadv : advance s = .ok () (s.forward 1) := advance_apply (by rw [htype]; decide)
  refine primary_leaf ?_ (by rw [htype]; decide)
  rw [parsePrimary, bind_ok (peek_apply s)]
  simp only [htype, hname]
  -- no parenthesis follows, so this is not a call
  rw [bind_ok hadv, bind_ok hadv, bind_ok (check_apply _ _), if_neg (by simpa using hs.1)]

private theorem readsUnary_zero : ReadsUnary fuel 0 e := by
  intro s ts rest hp hf hs
  have hnil : ts = [] := List.length_eq_zero_iff.mp (Nat.le_zero.mp hf)
  have hshape := hp.shape
  rw [hnil] at hshape
  exact absurd hshape.symm (print_ne_nil e 0)

private theorem readsAll_unop {op : UnOp} (h : ReadsAll e) : ReadsAll (.unop op e) := by
  refine readsAll_flat (fun _ => rfl) fun fuel fuel' => ?_
  cases fuel' with
  | zero => exact readsUnary_zero
  | succ fuel' => exact (h.unary fuel fuel').unop

mutual
private theorem readsAll : (e : Expr) → e.CallsFit → ReadsAll e
  | .int v, _ => readsAll_int v
  | .str str, _ => readsAll_str str
  | .bool b, _ => readsAll_bool b
  | .var name, _ => readsAll_var name
  | .unop _ e, h => readsAll_unop (readsAll e h)
  | .binop _ l r, h => readsAll_binop (readsAll l h.1) (readsAll r h.2)
  | .call _ args, h => readsAll_flat (fun _ => rfl) fun _ _ => readsUnary_call (readsAll_args args h.2) h.1

private theorem readsAll_args : (args : List Expr) → argsFit args → ∀ e ∈ args, ∀ fuel, Reads fuel 5 e
  | [], _ => by simp
  | e :: es, h => List.forall_mem_cons.mpr ⟨fun fuel => (readsAll e h.1).reads fuel 5, readsAll_args es h.2⟩
end

private theorem stops_of_continuesExpr {t : TokenType} (h : continuesExpr t = false) : Stops 5 t := by
  cases t <;> first | exact ⟨by decide, by decide⟩ | exact absurd h (by decide)

/-- Where `e` is printed the parser goes behind it, and adds its nodes to the arena. -/
theorem parseExpr_reads (he : e.CallsFit) (hts : ts.map Token.shape = e.print 5) (hs : s.ahead = ts ++ rest)
    (hrest : continuesExpr (rest.headD eofToken).type = false) (hroom : s.nodes.length + e.size ≤ maxNodes)
    (hf : ts.length < fuel) :
    ∃ n s' new, parseExpr fuel s = .ok n s' ∧ Grows ts.length new s s' ∧ new.length = e.size ∧
      Laid (cell s'.nodes) s.nodes.length [e.toTree] [n] s'.nodes.length := by
  obtain ⟨fuel, rfl⟩ : ∃ f, fuel = f + 1 := ⟨fuel - 1, by omega⟩
  obtain ⟨n, s', new, hrun, hr⟩ := (readsAll e he).reads fuel 5 s ts rest ⟨hts, hs, by omega, hroom⟩
    (stops_of_continuesExpr hrest)
  exact ⟨n, s', new, hrun, hr.grows, hr.size_eq, hr.laid⟩

/-- The parser inverts the printer: on the tokens of `e`, whatever their lines are
and whatever follows that cannot continue an expression, it goes exactly behind
them and returns a node at which `e` stands. -/
theorem parseExpr_print (e : Expr) (he : e.CallsFit) (s : Run) (ts rest : List Token) (fuel : Nat)
    (hts : ts.map Token.shape = e.print 5) (hs : s.ahead = ts ++ rest)
    (hrest : continuesExpr (rest.headD eofToken).type = false) (hroom : s.nodes.length + e.size ≤ maxNodes)
    (hf : ts.length < fuel) :
    ∃ n s', parseExpr fuel s = .ok n s' ∧ s'.tokens = s.tokens ∧ s'.tokPos = s.tokPos + ts.length ∧
      s'.error = s.error ∧ Holds (cell s'.nodes) [e.toTree] [n] := by
  obtain ⟨fuel, rfl⟩ : ∃ f, fuel = f + 1 := ⟨fuel - 1, by omega⟩
  obtain ⟨n, s', new, hrun, hr⟩ := (readsAll e he).reads fuel 5 s ts rest ⟨hts, hs, by omega, hroom⟩
    (stops_of_continuesExpr hrest)
  exact ⟨n, s', hrun, hr.grows.tokens, hr.grows.tokPos, hr.grows.error, hr.laid.holds⟩

/-- `(1 + x) * -f(2)`. -/
def sampleExpr : Expr :=
  .binop .mul (.binop .add (.int 1) (.var (ascii "x"))) (.unop .neg (.call (ascii "f") [.int 2]))

def sampleTokens : List Token :=
  [⟨.lparen, 0, [], 1⟩, ⟨.int, 1, [], 1⟩, ⟨.plus, 0, [], 1⟩, ⟨.ident, 0, ascii "x", 1⟩, ⟨.rparen, 0, [], 1⟩,
   ⟨.star, 0, [], 1⟩, ⟨.minus, 0, [], 1⟩, ⟨.ident, 0, ascii "f", 1⟩, ⟨.lparen, 0, [], 1⟩, ⟨.int, 2, [], 1⟩,
   ⟨.rparen, 0, [], 1⟩]

/-- The sample, at the beginning of a line. -/
def sampleRun : Run := GkState.start
    { freshState [] with tokens := sampleTokens ++ [⟨.newline, 0, [], 1⟩, ⟨.eof, 0, [], 2⟩] }

theorem parseExpr_print_sample : ∃ n s', parseExpr 20 sampleRun = .ok n s' ∧ s'.tokens = sampleRun.tokens ∧
    s'.tokPos = sampleRun.tokPos + sampleTokens.length ∧ s'.error = sampleRun.error ∧
    Holds (cell s'.nodes) [sampleExpr.toTree] [n] :=
  parseExpr_print sampleExpr ⟨⟨trivial, trivial⟩, by decide, trivial, trivial⟩ sampleRun sampleTokens
    [⟨.newline, 0, [], 1⟩, ⟨.eof, 0, [], 2⟩] 20 (by decide) rfl (by decide) (by decide) (by decide)

end GeckoOS.Gk
