import GeckoOS.Gk.Parser
import GeckoOS.Lib.Arena

/-! The syntax trees of GK, and what it means that they stand in the node array. -/
namespace GeckoOS.Gk
open Lib

inductive UnOp where
  | neg | not
  deriving DecidableEq

def UnOp.token : UnOp → TokenType
  | neg => .minus
  | not => .not

inductive BinOp where
  | mul | div | mod | add | sub | eq | neq | lt | le | gt | ge | and | or
  deriving DecidableEq

def BinOp.token : BinOp → TokenType
  | mul => .star
  | div => .slash
  | mod => .percent
  | add => .plus
  | sub => .minus
  | eq => .eq
  | neq => .neq
  | lt => .lt
  | le => .le
  | gt => .gt
  | ge => .ge
  | and => .and
  | or => .or

inductive Expr where
  | int (v : Int)
  | str (s : List UInt8)
  | bool (b : Bool)
  | var (name : List UInt8)
  | unop (op : UnOp) (e : Expr)
  | binop (op : BinOp) (l r : Expr)
  | call (name : List UInt8) (args : List Expr)

/-- A statement; the bodies that the parser builds are blocks. -/
inductive Stmt where
  | expr (e : Expr)
  | assign (name : List UInt8) (e : Expr)
  | ret (e : Option Expr)
  | brk
  | cont
  | define (name : List UInt8) (params : List (List UInt8)) (body : Stmt)
  | ite (cond : Expr) (body : Stmt)
  | iteElse (cond : Expr) (body els : Stmt)
  | loop (cond : Expr) (body : Stmt)
  | forIn (name : List UInt8) (iter : Expr) (body : Stmt)
  | block (stmts : List Stmt)

/-- What a node holds besides its line and its children. -/
structure Label where
  type : NodeType
  intVal : Int
  strVal : List UInt8
  op : TokenType
  deriving DecidableEq

def Node.label (n : Node) : Label := ⟨n.type, n.intVal, n.strVal, n.op⟩

/-- A node without value, text or operator, one with a text, and one with an operator. -/
def Label.plain (t : NodeType) : Label := ⟨t, 0, [], .int⟩
def Label.text (t : NodeType) (s : List UInt8) : Label := ⟨t, 0, s, .int⟩
def Label.operator (t : NodeType) (op : TokenType) : Label := ⟨t, 0, [], op⟩

/-- The node array as the cells of an arena. -/
def cell (nodes : List Node) (i : Nat) : Option (Label × List Nat) :=
  nodes[i]?.map fun n => (n.label, n.children)

mutual
def Expr.toTree : Expr → Lib.Tree Label
  | .int v => .node ⟨.int, v, [], .int⟩ []
  | .str s => .node (.text .str s) []
  | .bool b => .node ⟨.bool, if b then 1 else 0, [], .int⟩ []
  | .var name => .node (.text .var name) []
  | .unop op e => .node (.operator .unop op.token) [e.toTree]
  | .binop op l r => .node (.operator .binop op.token) [l.toTree, r.toTree]
  | .call name args => .node (.text (callType name) name) (exprTrees args)

def exprTrees : List Expr → List (Lib.Tree Label)
  | [] => []
  | e :: es => e.toTree :: exprTrees es
end

/-- The parameters of a definition are variables. -/
def paramTrees (params : List (List UInt8)) : List (Lib.Tree Label) :=
  params.map fun p => .node (.text .var p) []

mutual
def Stmt.toTree : Stmt → Lib.Tree Label
  | .expr e => e.toTree
  | .assign name e => .node (.text .assign name) [e.toTree]
  | .ret none => .node (.plain .returnNode) []
  | .ret (some e) => .node (.plain .returnNode) [e.toTree]
  | .brk => .node (.plain .breakNode) []
  | .cont => .node (.plain .continueNode) []
  | .define name params body => .node (.text .defNode name) (paramTrees params ++ [body.toTree])
  | .ite cond body => .node (.plain .ifNode) [cond.toTree, body.toTree]
  | .iteElse cond body els => .node (.plain .ifNode) [cond.toTree, body.toTree, els.toTree]
  | .loop cond body => .node (.plain .whileNode) [cond.toTree, body.toTree]
  | .forIn name iter body => .node (.text .forNode name) [iter.toTree, body.toTree]
  | .block stmts => .node (.plain .block) (stmtTrees stmts)

def stmtTrees : List Stmt → List (Lib.Tree Label)
  | [] => []
  | s :: ss => s.toTree :: stmtTrees ss
end

end GeckoOS.Gk
