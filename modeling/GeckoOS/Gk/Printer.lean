import GeckoOS.Gk.ExprRoundTrip

/-! Programs printed as tokens. -/
namespace GeckoOS.Gk
open Lib

def Stmt.isBlock : Stmt → Bool
  | .block _ => true
  | _ => false

/-- What may stand behind an if statement: a block under `else`, or `elif`. -/
def Stmt.isBranch : Stmt → Bool
  | .block _ | .ite _ _ | .iteElse _ _ _ => true
  | _ => false

def printParams : List (List UInt8) → List Shape
  | [] => []
  | [p] => [.name p]
  | p :: q :: ps => .name p :: .symbol .comma :: printParams (q :: ps)

/-- A line ends behind these tokens. -/
def inLine (ts : List Shape) : List Shape := ts ++ [.symbol .newline]

/-- The keyword in front of a branch that has none of its own. -/
def branchWord (els : Stmt) : List Shape := if els.isBlock then [.symbol .kwElse] else []

mutual
/-- The tokens of a statement, where `word` stands in front of a condition. Those
of a block begin with the colon at the end of its header. -/
def Stmt.print : Stmt → TokenType → List Shape
  | .expr e, _ => inLine (e.print 5)
  | .assign name e, _ => inLine (.name name :: .symbol .assign :: e.print 5)
  | .ret none, _ => inLine [.symbol .kwReturn]
  | .ret (some e), _ => inLine (.symbol .kwReturn :: e.print 5)
  | .brk, _ => inLine [.symbol .kwBreak]
  | .cont, _ => inLine [.symbol .kwContinue]
  | .define name params body, _ =>
    .symbol .kwDef :: .name name :: (inParens (printParams params) ++ body.print .kwIf)
  | .ite cond body, word => .symbol word :: (cond.print 5 ++ body.print .kwIf)
  | .iteElse cond body els, word =>
    .symbol word :: (cond.print 5 ++ (body.print .kwIf ++ (branchWord els ++ els.print .kwElif)))
  | .loop cond body, _ => .symbol .kwWhile :: (cond.print 5 ++ body.print .kwIf)
  | .forIn name iter body, _ =>
    .symbol .kwFor :: .name name :: .symbol .kwIn :: (iter.print 5 ++ body.print .kwIf)
  | .block sts, _ =>
    .symbol .colon :: .symbol .newline :: .symbol .indent :: (printAll sts ++ [.symbol .dedent])

def printAll : List Stmt → List Shape
  | [] => []
  | st :: sts => st.print .kwIf ++ printAll sts
end

mutual
/-- The number of nodes of a statement. -/
def Stmt.size : Stmt → Nat
  | .expr e => e.size
  | .assign _ e => e.size + 1
  | .ret none | .brk | .cont => 1
  | .ret (some e) => e.size + 1
  | .define _ params body => params.length + body.size + 1
  | .ite cond body | .loop cond body | .forIn _ cond body => cond.size + body.size + 1
  | .iteElse cond body els => cond.size + body.size + els.size + 1
  | .block sts => sizeAll sts + 1

def sizeAll : List Stmt → Nat
  | [] => 0
  | st :: sts => st.size + sizeAll sts
end

mutual
/-- Blocks stand behind headers and nowhere else, and no node has more than
GK_MAX_CHILDREN children. -/
def Stmt.Fits : Stmt → Prop
  | .expr e | .assign _ e | .ret (some e) => e.CallsFit
  | .ret none | .brk | .cont => True
  | .define _ params body => params.length < maxChildren ∧ body.isBlock ∧ body.Fits
  | .ite cond body | .loop cond body | .forIn _ cond body => cond.CallsFit ∧ body.isBlock ∧ body.Fits
  | .iteElse cond body els => cond.CallsFit ∧ (body.isBlock ∧ body.Fits) ∧ els.isBranch ∧ els.Fits
  | .block sts => sts.length ≤ maxChildren ∧ allFit sts

def allFit : List Stmt → Prop
  | [] => True
  | st :: sts => (st.isBlock = false ∧ st.Fits) ∧ allFit sts
end

variable {ts rest : List Token} {sts : List Stmt}

/-! ### The tokens that statements begin with -/

def Shape.type : Shape → TokenType
  | .int _ => .int
  | .str _ => .str
  | .name _ => .ident
  | .symbol t => t

theorem shape_type (t : Token) : t.shape.type = t.type := by
  unfold Token.shape
  cases ht : t.type <;> rfl

def exprStarts : List TokenType := [.int, .str, .ident, .kwTrue, .kwFalse, .minus, .not, .lparen]

theorem Expr.print_starts : (e : Expr) → (row : Nat) → ∃ sh shs, e.print row = sh :: shs ∧ sh.type ∈ exprStarts
  | .int v, _ => ⟨_, _, rfl, by simp [Shape.type, exprStarts]⟩
  | .str v, _ => ⟨_, _, rfl, by simp [Shape.type, exprStarts]⟩
  | .bool b, _ => ⟨_, _, rfl, by cases b <;> decide⟩
  | .var name, _ => ⟨_, _, rfl, by simp [Shape.type, exprStarts]⟩
  | .unop op e, _ => ⟨_, _, rfl, by cases op <;> decide⟩
  | .call name args, _ => ⟨_, _, rfl, by simp [Shape.type, exprStarts]⟩
  | .binop op l r, row => by
    obtain ⟨sh, shs, hl, hmem⟩ := l.print_starts op.row
    rw [Expr.print]
    split
    · exact ⟨sh, _, by rw [hl]; rfl, hmem⟩
    · exact ⟨_, _, rfl, by decide⟩

mutual
/-- There is no `=` in an expression. -/
theorem Expr.print_ne_assign : (e : Expr) → (row : Nat) → ∀ sh ∈ e.print row, sh.type ≠ .assign
  | .int v, _ => by simp [Expr.print, Shape.type]
  | .str v, _ => by simp [Expr.print, Shape.type]
  | .bool b, _ => by cases b <;> simp [Expr.print, Shape.type]
  | .var name, _ => by simp [Expr.print, Shape.type]
  | .unop op e, _ => by
    rw [Expr.print]
    exact List.forall_mem_cons.mpr ⟨by cases op <;> decide, e.print_ne_assign 0⟩
  | .call name args, _ => by
    rw [Expr.print, inParens]
    simp only [List.forall_mem_cons, List.forall_mem_append, List.cons_append]
    exact ⟨by simp [Shape.type], by simp [Shape.type], printArgs_ne_assign args, by simp [Shape.type]⟩
  | .binop op l r, row => by
    have hbare : ∀ sh ∈ l.print op.row ++ .symbol op.token :: r.print (op.row - 1), sh.type ≠ .assign := by
      simp only [List.forall_mem_cons, List.forall_mem_append]
      exact ⟨l.print_ne_assign _, by cases op <;> decide, r.print_ne_assign _⟩
    rw [Expr.print]
    split
    · exact hbare
    · rw [inParens, List.cons_append]
      refine List.forall_mem_cons.mpr ⟨by decide, List.forall_mem_append.mpr ⟨hbare, ?_⟩⟩
      simp [Shape.type]

theorem printArgs_ne_assign : (es : List Expr) → ∀ sh ∈ printArgs es, sh.type ≠ .assign
  | [] => by simp [printArgs]
  | [e] => e.print_ne_assign 5
  | e :: e' :: es => by
    rw [printArgs]
    simp only [List.forall_mem_cons, List.forall_mem_append]
    exact ⟨e.print_ne_assign 5, by simp [Shape.type], printArgs_ne_assign (e' :: es)⟩
end

def stmtStarts : List TokenType :=
  exprStarts ++ [.kwReturn, .kwBreak, .kwContinue, .kwDef, .kwIf, .kwWhile, .kwFor]

theorem Stmt.print_starts (st : Stmt) (h : st.isBlock = false) :
    ∃ sh shs, st.print .kwIf = sh :: shs ∧ sh.type ∈ stmtStarts := by
  cases st with
  | expr e =>
    obtain ⟨sh, shs, he, hmem⟩ := e.print_starts 5
    exact ⟨sh, _, by rw [Stmt.print, inLine, he]; rfl, List.mem_append_left _ hmem⟩
  | ret e => cases e <;> exact ⟨_, _, rfl, by decide⟩
  | block => cases h
  | assign => exact ⟨_, _, rfl, by simp [Shape.type, stmtStarts, exprStarts]⟩
  | _ => exact ⟨_, _, rfl, by decide⟩

/-- What may follow a statement: the next one, or the end of its block. -/
def stmtEnds : List TokenType := stmtStarts ++ [.dedent, .eof]

theorem printAll_starts (hfit : allFit sts) (hts : ts.map Token.shape = printAll sts)
    (hrest : (rest.headD eofToken).type ∈ [TokenType.dedent, .eof]) :
      ((ts ++ rest).headD eofToken).type ∈ stmtEnds := by
  cases sts with
  | nil =>
    obtain rfl := List.map_eq_nil_iff.mp hts
    exact List.mem_append_right _ hrest
  | cons st sts =>
    obtain ⟨sh, shs, hst, hmem⟩ := st.print_starts hfit.1.1
    rw [printAll, hst, List.cons_append] at hts
    obtain ⟨t, ts', rfl, ht, -⟩ := List.map_eq_cons_iff.mp hts
    refine List.mem_append_left _ ?_
    rw [List.cons_append, List.headD_cons, ← shape_type, ht]
    exact hmem

/-- A token of this shape. -/
def Shape.token : Shape → Token
  | .int v => ⟨.int, v, [], 0⟩
  | .str s => ⟨.str, 0, s, 0⟩
  | .name s => ⟨.ident, 0, s, 0⟩
  | .symbol t => ⟨t, 0, [], 0⟩

end GeckoOS.Gk
