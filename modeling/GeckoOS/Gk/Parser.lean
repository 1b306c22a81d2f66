import GeckoOS.Gk.State
import GeckoOS.Lib.Programs

/-! The recursive descent parser of gk_parser.c. A result -1 is a stop; each
recursive function takes the parsers that it calls, and the fuel of its loops. -/
namespace GeckoOS.Gk
open Lib

/-- What is read behind the tokens. -/
def eofToken : Token := ⟨.eof, 0, [], 0⟩

def newNode (t : NodeType) (line : Nat) : GkM Nat := do
  let s ← get
  if maxNodes ≤ s.nodes.length then fail .tooManyNodes
  update fun s => { s with nodes := s.nodes ++ [⟨t, line, 0, [], .int, []⟩] }
  return s.nodes.length

/-- Set fields of `nodes[n]`. -/
def setNode (n : Nat) (f : Node → Node) : GkM Unit := update fun s => { s with nodes := s.nodes.modify n f }

/-- `nodes[n].child[nodes[n].n_children++] = c`. -/
def addChild (n c : Nat) : GkM Unit := do
  let s ← get
  if (s.nodes[n]?.map fun x => x.children.length).getD 0 < maxChildren then
    setNode n fun x => { x with children := x.children ++ [c] }
  else throw .overrun

/-- The same where n_children is compared with GK_MAX_CHILDREN first. -/
def addChecked (n c : Nat) (e : GkError) : GkM Unit := do
  let s ← get
  if maxChildren ≤ (s.nodes[n]?.map fun x => x.children.length).getD 0 then fail e
  addChild n c

def peek : GkM Token := do
  let s ← get
  return s.tokens.getD s.tokPos eofToken

def advance : GkM Unit := do
  if (← peek).type ≠ .eof then modify fun s => { s with tokPos := s.tokPos + 1 }

def check (t : TokenType) : GkM Bool := do
  return (← peek).type == t

def matchToken (t : TokenType) : GkM Bool := do
  if ← check t then
    advance
    return true
  else return false

def expect (t : TokenType) (e : GkError) : GkM Unit := do
  if !(← matchToken t) then fail e

def skipNewlines : GkM Unit := modify fun s =>
  { s with tokPos := s.tokPos + ((s.tokens.drop s.tokPos).takeWhile (·.type == .newline)).length }

/-- The node of a call, which the name decides. -/
def callType (name : List UInt8) : NodeType :=
  if name = ascii "print" then .print
  else if name = ascii "range" then .range
  else if name = ascii "input" then .input
  else if name = ascii "int" then .intCast
  else .call

/-- The loop over the arguments of the call `n`. -/
def argLoop (expr : GkM Nat) (n : Nat) : Nat → GkM Unit
  | 0 => throw .outOfFuel
  | fuel+1 => do
    if !(← check .rparen) && !(← check .eof) then
      let arg ← expr
      addChecked n arg .tooManyArguments
      if ← matchToken .comma then argLoop expr n fuel

/-- A node without children, with the value and the text of its token. -/
def leaf (t : NodeType) (line : Nat) (v : Int) (str : List UInt8) : GkM Nat := do
  let n ← newNode t line
  setNode n fun x => { x with intVal := v, strVal := str }
  return n

def parsePrimary (fuel : Nat) (expr : GkM Nat) : GkM Nat := do
  let t ← peek
  match t.type with
  | .int => do
    advance
    leaf .int t.line t.intVal []
  | .str => do
    advance
    leaf .str t.line 0 t.strVal
  | .kwTrue => do
    advance
    leaf .bool t.line 1 []
  | .kwFalse => do
    advance
    leaf .bool t.line 0 []
  | .ident => do
    advance
    if ← check .lparen then
      advance
      let n ← leaf (callType t.strVal) t.line 0 t.strVal
      argLoop expr n fuel
      expect .rparen .rparenAfterArguments
      return n
    else leaf .var t.line 0 t.strVal
  | .lparen => do
    advance
    let n ← expr
    expect .rparen .rparen
    return n
  | _ => fail .unexpectedToken

/-- An operator node over operands that are already there. -/
def operatorNode (type : NodeType) (t : Token) (children : List Nat) : GkM Nat := do
  let n ← newNode type t.line
  setNode n fun x => { x with op := t.type, children := children }
  return n

def parseUnary (primary : GkM Nat) : Nat → GkM Nat
  | 0 => throw .outOfFuel
  | fuel+1 => do
    let t ← peek
    if t.type = .minus ∨ t.type = .not then
      advance
      let operand ← parseUnary primary fuel
      operatorNode .unop t [operand]
    else primary

/-- The loop of one level of binary operators. -/
def binaryLoop (ops : List TokenType) (operand : GkM Nat) : Nat → Nat → GkM Nat
  | 0, _ => throw .outOfFuel
  | fuel+1, left => do
    let t ← peek
    if t.type ∈ ops then
      advance
      let right ← operand
      let n ← operatorNode .binop t [left, right]
      binaryLoop ops operand fuel n
    else return left

/-- One level of binary operators, over the parser of the next level. -/
def parseBinary (ops : List TokenType) (fuel : Nat) (operand : GkM Nat) : GkM Nat := do
  let left ← operand
  binaryLoop ops operand fuel left

def mulOps : List TokenType := [.star, .slash, .percent]
def addOps : List TokenType := [.plus, .minus]
def cmpOps : List TokenType := [.eq, .neq, .lt, .le, .gt, .ge]

def parseMul (fuel : Nat) (unary : GkM Nat) : GkM Nat := parseBinary mulOps fuel unary
def parseAdd (fuel : Nat) (mul : GkM Nat) : GkM Nat := parseBinary addOps fuel mul
def parseCmp (fuel : Nat) (add : GkM Nat) : GkM Nat := parseBinary cmpOps fuel add
def parseAnd (fuel : Nat) (cmp : GkM Nat) : GkM Nat := parseBinary [.and] fuel cmp
def parseOr (fuel : Nat) (and : GkM Nat) : GkM Nat := parseBinary [.or] fuel and

def parseExpr : Nat → GkM Nat
  | 0 => throw .outOfFuel
  | fuel+1 =>
    parseOr fuel (parseAnd fuel (parseCmp fuel (parseAdd fuel (parseMul fuel
      (parseUnary (parsePrimary fuel (parseExpr fuel)) fuel)))))

/-- The loop over the statements of the block `n`. -/
def stmtLoop (stmt : GkM Nat) (ends : List TokenType) (e : GkError) (n : Nat) : Nat → GkM Unit
  | 0 => throw .outOfFuel
  | fuel+1 => do
    if (← peek).type ∉ ends then
      let st ← stmt
      addChecked n st e
      skipNewlines
      stmtLoop stmt ends e n fuel

def parseBlock (fuel : Nat) (stmt : GkM Nat) : GkM Nat := do
  let t ← peek
  expect .indent .indentedBlock
  let block ← newNode .block t.line
  skipNewlines
  stmtLoop stmt [.dedent, .eof] .blockTooLarge block fuel
  let _ ← matchToken .dedent
  return block

def parseReturn (expr : GkM Nat) : GkM Nat := do
  let t ← peek
  advance
  let n ← newNode .returnNode t.line
  if !(← check .newline) && !(← check .eof) then
    let e ← expr
    setNode n fun x => { x with children := [e] }
  let _ ← matchToken .newline
  return n

/-- `break` and `continue`. -/
def parseJump (type : NodeType) : GkM Nat := do
  let t ← peek
  advance
  let _ ← matchToken .newline
  newNode type t.line

/-- The parameters of the definition `n`. There is no check of n_children here. -/
def paramLoop (n : Nat) : Nat → GkM Unit
  | 0 => throw .outOfFuel
  | fuel+1 => do
    if !(← check .rparen) && !(← check .eof) then
      let param ← peek
      if param.type ≠ .ident then fail .parameterName
      advance
      let pn ← leaf .var param.line 0 param.strVal
      addChild n pn
      if ← matchToken .comma then paramLoop n fuel

def parseDef (fuel : Nat) (stmt : GkM Nat) : GkM Nat := do
  let t ← peek
  advance
  let name ← peek
  if name.type ≠ .ident then fail .functionName
  advance
  let n ← leaf .defNode t.line 0 name.strVal
  expect .lparen .lparenAfterName
  paramLoop n fuel
  expect .rparen .rparenAfterParameters
  expect .colon .colonAfterDef
  let _ ← matchToken .newline
  let body ← parseBlock fuel stmt
  addChild n body
  return n

/-- The condition or iterable of a header, and the block under it. -/
def parseHeader (fuel : Nat) (expr stmt : GkM Nat) (e : GkError) : GkM (Nat × Nat) := do
  let cond ← expr
  expect .colon e
  let _ ← matchToken .newline
  let body ← parseBlock fuel stmt
  return (cond, body)

def parseIf (fuel : Nat) (expr stmt : GkM Nat) : GkM Nat := do
  let t ← peek
  advance
  let n ← newNode .ifNode t.line
  let (cond, body) ← parseHeader fuel expr stmt .colonAfterIf
  setNode n fun x => { x with children := [cond, body] }
  skipNewlines
  if ← check .kwElif then
    let elifNode ← stmt
    setNode n fun x => { x with children := [cond, body, elifNode] }
  else if ← check .kwElse then
    advance
    expect .colon .colonAfterElse
    let _ ← matchToken .newline
    let elseBody ← parseBlock fuel stmt
    setNode n fun x => { x with children := [cond, body, elseBody] }
  return n

def parseWhile (fuel : Nat) (expr stmt : GkM Nat) : GkM Nat := do
  let t ← peek
  advance
  let n ← newNode .whileNode t.line
  let (cond, body) ← parseHeader fuel expr stmt .colonAfterWhile
  setNode n fun x => { x with children := [cond, body] }
  return n

def parseFor (fuel : Nat) (expr stmt : GkM Nat) : GkM Nat := do
  let t ← peek
  advance
  let var ← peek
  if var.type ≠ .ident then fail .forVariable
  advance
  expect .kwIn .inAfterVariable
  let n ← leaf .forNode t.line 0 var.strVal
  let (iter, body) ← parseHeader fuel expr stmt .colonAfterFor
  setNode n fun x => { x with children := [iter, body] }
  return n

def parseAssign (expr : GkM Nat) : GkM Nat := do
  -- the copy of the name has 64 bytes, and the lexer's names have fewer
  let t ← peek
  advance
  advance
  let n ← leaf .assign t.line 0 t.strVal
  let e ← expr
  setNode n fun x => { x with children := [e] }
  let _ ← matchToken .newline
  return n

def parseExprStmt (expr : GkM Nat) : GkM Nat := do
  let e ← expr
  let _ ← matchToken .newline
  return e

/-- The token after the next one is `=`. -/
def assignFollows : GkM Bool := do
  let s ← get
  return s.tokPos + 1 < s.tokens.length && (s.tokens.getD (s.tokPos + 1) eofToken).type == .assign

def parseStmt : Nat → GkM Nat
  | 0 => throw .outOfFuel
  | fuel+1 => do
    let t ← peek
    match t.type with
    | .kwReturn => parseReturn (parseExpr fuel)
    | .kwBreak => parseJump .breakNode
    | .kwContinue => parseJump .continueNode
    | .kwDef => parseDef fuel (parseStmt fuel)
    | .kwIf => parseIf fuel (parseExpr fuel) (parseStmt fuel)
    | .kwElif => parseIf fuel (parseExpr fuel) (parseStmt fuel)
    | .kwWhile => parseWhile fuel (parseExpr fuel) (parseStmt fuel)
    | .kwFor => parseFor fuel (parseExpr fuel) (parseStmt fuel)
    | .ident => do
      if ← assignFollows then parseAssign (parseExpr fuel) else parseExprStmt (parseExpr fuel)
    | _ => parseExprStmt (parseExpr fuel)

/-- `gk_parse`: the index of the root. -/
def gkParse : GkM Nat := do
  update fun s => { s with nodes := [], tokPos := 0 }
  let s ← get
  let fuel := s.tokens.length + 2
  let root ← newNode .block 0
  skipNewlines
  stmtLoop (parseStmt fuel) [.eof] .tooManyStatements root fuel
  return root

end GeckoOS.Gk
