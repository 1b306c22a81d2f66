import GeckoOS.Gk.Lexer
import GeckoOS.Gk.Parser
import Mathlib.Data.List.DropRight

/-! The interpreter of gk_interp.c. A child index -1 is `none`; the functions for
the node types take the evaluation of the children as a parameter. -/
namespace GeckoOS.Gk
open Lib

def strcat (dst src : List UInt8) : List UInt8 := dst ++ src.take (maxStr - 1 - dst.length)

/-- The digits of `v` in front of the others. -/
def digitLoop : Nat → Nat → List UInt8 → List UInt8
  | 0, _, buf => buf
  | fuel+1, v, buf => if v = 0 then buf else digitLoop fuel (v / 10) (.ofNat (48 + v % 10) :: buf)

/-- `int_to_str`; the digits of a 32-bit number are at most ten. -/
def intToStr (v : Int) : List UInt8 :=
  if v = 0 then ascii "0"
  else if v < 0 then '-'.toUInt8 :: digitLoop 10 (wrap32 (-v)).toNat []
  else digitLoop 10 v.toNat []

def isTruthy : Value → Bool
  | .bool b => b
  | .int v => v ≠ 0
  | .str s => s ≠ []
  | .none => false

def valToStr : Value → List UInt8
  | .int v => intToStr v
  | .bool b => if b then ascii "True" else ascii "False"
  | .str s => s
  | .none => ascii "None"

/-- The last entry with this name, whatever its scope. -/
def findVar (vars : List Var) (name : List UInt8) : Option Var := vars.reverse.find? fun v => v.name = name

/-- The search of `set_var` from the end of the array, which is here the front:
it ends at the first entry of an outer scope. -/
def setInScope (depth : Int) (name : List UInt8) (val : Value) : List Var → Option (List Var)
  | [] => none
  | v :: vs =>
    if v.scope < depth then none
    else if v.name = name then some ({ v with val := val } :: vs)
    else (setInScope depth name val vs).map (v :: ·)

/-- Set the error; the evaluation goes on with None. -/
def evalError (e : GkError) : GkM Value := do
  update fun s => { s with error := some e }
  return .none

def setVar (name : List UInt8) (val : Value) : GkM Bool := do
  let s ← get
  match setInScope s.callDepth name val s.vars.reverse with
  | some vs => do
    update fun s => { s with vars := vs.reverse }
    return true
  | none =>
    if maxVars ≤ s.vars.length then do
      let _ ← evalError .tooManyVariables
      return false
    else do
      update fun s => { s with vars := s.vars ++ [⟨name, val, s.callDepth⟩] }
      return true

def popScope : GkM Unit := update fun s => { s with vars := s.vars.rdropWhile fun v => s.callDepth ≤ v.scope }

def findFunc (funcs : List FuncDef) (name : List UInt8) : Option FuncDef := funcs.find? fun f => f.name = name

def gkPrint (text : List UInt8) : GkM Unit := update fun s => { s with output := s.output ++ text }

/-- `if (s->error[0]) return val_none()` in front of the rest. -/
def unlessError (rest : GkM Value) : GkM Value := do
  if (← get).error.isSome then return .none else rest

section
variable (ev : Option Nat → GkM Value)

def evalVar (n : Node) : GkM Value := do
  match findVar (← get).vars n.strVal with
  | some v => return v.val
  | none => evalError (.undefinedVariable n.strVal)

def evalAssign (n : Node) : GkM Value := do
  let val ← ev n.children[0]?
  unlessError do
    if ← setVar n.strVal val then return val else return .none

def evalUnop (n : Node) : GkM Value := do
  let operand ← ev n.children[0]?
  unlessError do
    if n.op = .minus then
      match operand with
      | .int v => return .int (wrap32 (-v))
      | _ => evalError .unaryMinus
    else if n.op = .not then return .bool !isTruthy operand
    else return .none

/-- `a / b` and `a % b`, which the processor computes together. -/
def divide (a b : Int) (zero : GkError) (result : Int) : GkM Value :=
  if b = 0 then evalError zero
  else if a = -2147483648 ∧ b = -1 then throw .divideError
  else return .int result

/-- The operators on two integers. -/
def integerOp (op : TokenType) (a b : Int) : GkM Value :=
  match op with
  | .plus => return .int (wrap32 (a + b))
  | .minus => return .int (wrap32 (a - b))
  | .star => return .int (wrap32 (a * b))
  | .slash => divide a b .divisionByZero (a.tdiv b)
  | .percent => divide a b .moduloByZero (a.tmod b)
  | .lt => return .bool (a < b)
  | .le => return .bool (a ≤ b)
  | .gt => return .bool (a > b)
  | .ge => return .bool (a ≥ b)
  | _ => evalError .unknownOperator

/-- Whether two values are equal; values of different types never are. -/
def sameValue : Value → Value → Bool
  | .int a, .int b => a = b
  | .bool a, .bool b => a = b
  | .str a, .str b => a = b
  | _, _ => false

/-- The operators whose operands are both evaluated. -/
def strictOp (op : TokenType) (l r : Value) : GkM Value :=
  match op, l, r with
  | .plus, .str s, r => return .str (strcat s (valToStr r))
  | .eq, l, r => return .bool (sameValue l r)
  | .neq, l, r => return .bool !sameValue l r
  | op, .int a, .int b => integerOp op a b
  | _, _, _ => evalError .requiresIntegers

def evalBinop (n : Node) : GkM Value := do
  if n.op = .and then
    let l ← ev n.children[0]?
    if isTruthy l then
      let r ← ev n.children[1]?
      return .bool (isTruthy r)
    else return .bool false
  else if n.op = .or then
    let l ← ev n.children[0]?
    if isTruthy l then return .bool true
    else
      let r ← ev n.children[1]?
      return .bool (isTruthy r)
  else
    let l ← ev n.children[0]?
    unlessError do
      let r ← ev n.children[1]?
      unlessError (strictOp n.op l r)

/-- The loop over the arguments of `print`, and the newline behind it. -/
def printLoop : List Nat → GkM Value
  | [] => do
    gkPrint (ascii "\n")
    return .none
  | c :: cs => do
    let v ← ev (some c)
    unlessError do
      gkPrint (valToStr v ++ if cs = [] then [] else ascii " ")
      printLoop cs

/-- The buffer takes 254 characters of the line. -/
def readLine : GkM Value := do
  let s ← get
  update fun s => { s with input := s.input.tail }
  gkPrint (ascii "\n")
  return .str ((s.input.headD []).take (maxStr - 2))

def evalInput (n : Node) : GkM Value :=
  match n.children with
  | [] => readLine
  | c :: _ => do
    let prompt ← ev (some c)
    unlessError do
      gkPrint (valToStr prompt)
      readLine

/-- The number that a string stands for. -/
def parseInt (str : List UInt8) : Option Int :=
  let neg := str.headD 0 = '-'.toUInt8
  let digits := if neg then str.tail else str
  if digits = [] ∨ ¬ digits.all isDigit then none
  else some (if neg then wrap32 (-digitsVal digits) else digitsVal digits)

def evalIntCast (n : Node) : GkM Value := do
  if n.children.length ≠ 1 then evalError .intArguments
  else
    let v ← ev n.children[0]?
    unlessError do
      match v with
      | .int v => return .int v
      | .str str =>
        match parseInt str with
        | some v => return .int v
        | none => evalError .intLiteral
      | _ => evalError .intArgumentType

def blockLoop : List Nat → Value → GkM Value
  | [], last => return last
  | c :: cs, _ => do
    let last ← ev (some c)
    let s ← get
    if s.error.isSome || s.returning || s.breaking || s.continuing then return last
    else blockLoop cs last

def evalIf (n : Node) : GkM Value := do
  let cond ← ev n.children[0]?
  unlessError do
    if isTruthy cond then ev n.children[1]?
    else if n.children.length = 3 then ev n.children[2]?
    else return .none

/-- The tests behind a loop body: whether the loop goes on. -/
def loopGoesOn : GkM Bool := do
  let s ← get
  if s.error.isSome || s.returning then return false
  else if s.breaking then do
    update fun s => { s with breaking := false }
    return false
  else if s.continuing then do
    update fun s => { s with continuing := false }
    return true
  else return true

def whileLoop (n : Node) : Nat → Value → GkM Value
  | 0, _ => throw .outOfFuel
  | fuel+1, result => do
    let cond ← ev n.children[0]?
    if (← get).error.isSome || !isTruthy cond then return result
    else
      let result ← ev n.children[1]?
      if ← loopGoesOn then whileLoop n fuel result else return result

/-- The limit of a for loop in an integer, or nothing after an error. -/
def forLimit (v : Value) (e : GkError) : GkM (Option Int) := do
  if (← get).error.isSome then return none
  else
    match v with
    | .int limit => return some limit
    | _ => do
      let _ ← evalError e
      return none

def evalLimit (n : Node) : GkM (Option Int) := do
  match (← get).nodes[n.children[0]?.getD maxNodes]? with
  | none => throw .overrun
  | some iter =>
    if iter.type = .range then
      if iter.children.length < 1 then do
        let _ ← evalError .rangeArguments
        return none
      else do
        let v ← ev iter.children[0]?
        forLimit v .rangeArgumentType
    else do
      let v ← ev n.children[0]?
      forLimit v .forLimit

/-- The passes `i`, `i + 1`, .. of a for loop, as many as are left. -/
def forLoop (n : Node) : Nat → Int → Value → GkM Value
  | 0, _, result => return result
  | left+1, i, _ => do
    if ← setVar n.strVal (.int i) then
      let result ← ev n.children[1]?
      if ← loopGoesOn then forLoop n left (i + 1) result else return result
    else return .none

def evalFor (n : Node) : GkM Value := do
  match ← evalLimit ev n with
  | none => return .none
  | some limit => forLoop ev n limit.toNat 0 .none

def evalDef (n : Node) : GkM Value := do
  let s ← get
  if maxFuncs ≤ s.funcs.length then evalError .tooManyFunctions
  else do
    let params := (n.children.dropLast.take maxParams).map fun c => (s.nodes[c]?.map (·.strVal)).getD []
    update fun s => { s with funcs := s.funcs ++ [⟨n.strVal, params, n.children.getLast?⟩] }
    return .none

/-- The arguments of a call from left to right, up to the first error. -/
def evalArgs : List Nat → GkM (Option (List Value))
  | [] => return some []
  | c :: cs => do
    let v ← ev (some c)
    if (← get).error.isSome then return none
    else
      match ← evalArgs cs with
      | some vs => return some (v :: vs)
      | none => return none

/-- The parameters become variables. -/
def bindParams : List (List UInt8 × Value) → GkM Bool
  | [] => return true
  | (name, val) :: rest => do
    if ← setVar name val then bindParams rest else return false

/-- The body of a function and the end of its scope. -/
def runBody (f : FuncDef) : GkM Value := do
  let result ← ev f.bodyNode
  let s ← get
  update fun s => { s with returning := false }
  popScope
  return if s.returning then s.returnVal else result

def enterCall : GkM Unit := update fun s => { s with callDepth := s.callDepth + 1 }
def leaveCall : GkM Unit := update fun s => { s with callDepth := s.callDepth - 1 }

/-- A call, from where its arguments are known. -/
def applyFunc (f : FuncDef) (args : List Value) : GkM Value := do
  enterCall
  if ← bindParams (f.params.zip args) then do
    let result ← runBody ev f
    leaveCall
    return result
  else do
    leaveCall
    return .none

def evalCall (n : Node) : GkM Value := do
  let s ← get
  match findFunc s.funcs n.strVal with
  | none => evalError (.undefinedFunction n.strVal)
  | some f =>
    if n.children.length ≠ f.params.length then evalError .wrongArguments
    else if maxCallDepth ≤ s.callDepth then evalError .callDepth
    else
      match ← evalArgs ev n.children with
      | none => return .none
      | some args => applyFunc ev f args

def evalReturn (n : Node) : GkM Value := do
  match n.children with
  | [] => do
    update fun s => { s with returning := true, returnVal := .none }
    return .none
  | c :: _ => do
    let v ← ev (some c)
    unlessError do
      update fun s => { s with returning := true, returnVal := v }
      return v

/-- The switch of `eval`, with the fuel for a while loop. -/
def evalNode (fuel : Nat) (n : Node) : GkM Value :=
  match n.type with
  | .int => return .int n.intVal
  | .str => return .str n.strVal
  | .bool => return .bool (n.intVal ≠ 0)
  | .var => evalVar n
  | .assign => evalAssign ev n
  | .unop => evalUnop ev n
  | .binop => evalBinop ev n
  | .print => printLoop ev n.children
  | .input => evalInput ev n
  | .intCast => evalIntCast ev n
  | .block => blockLoop ev n.children .none
  | .ifNode => evalIf ev n
  | .whileNode => whileLoop ev n fuel .none
  | .forNode => evalFor ev n
  | .defNode => evalDef n
  | .call => evalCall ev n
  | .returnNode => evalReturn ev n
  | .breakNode => do
    update fun s => { s with breaking := true }
    return .none
  | .continueNode => do
    update fun s => { s with continuing := true }
    return .none
  | .range => evalError .unknownNode

end

/-- What `eval` does at an index, given the evaluation of a node. -/
def evalAt (node : Node → GkM Value) : Option Nat → GkM Value
  | none => return .none
  | some i => unlessError do
    match (← get).nodes[i]? with
    | none => throw .overrun
    | some n => node n

def eval : Nat → Option Nat → GkM Value
  | 0 => evalAt fun _ => throw .outOfFuel
  | fuel+1 => evalAt (evalNode (eval fuel) fuel)

/-- Nothing for a result that reports a failure. -/
def attempt {α : Type} (p : GkM α) : GkM (Option α) := fun s =>
  match p s with
  | .ok a s' => .ok (some a) s'
  | .error .failed s' => .ok none s'
  | .error e s' => .error e s'

/-- The message of a phase, and the result false. -/
def report (phase : List UInt8) : GkM Bool := do
  let s ← get
  gkPrint (phase ++ (s.error.map GkError.text).getD [] ++ ascii "\n")
  return false

def gkRun (fuel : Nat) (src : List UInt8) : GkM Bool := do
  update fun s => { s with error := none, returning := false, breaking := false, continuing := false }
  match ← attempt (gkLex src) with
  | none => report (ascii "gk lex error: ")
  | some () =>
    match ← attempt gkParse with
    | none => report (ascii "gk parse error: ")
    | some root =>
      if (← get).error.isSome then report (ascii "gk parse error: ")
      else do
        let _ ← eval fuel (some root)
        if (← get).error.isSome then report (ascii "gk runtime error: ") else return true

end GeckoOS.Gk
