import GeckoOS.Lib.CInt

/-! The data of the GK scripting language, as in gk.h. Strings are the bytes in
front of their NUL, and an array with its count is a list. -/
namespace GeckoOS.Gk

def maxTokens : Nat := 2048
def maxNodes : Nat := 2048
def maxVars : Nat := 128
def maxFuncs : Nat := 64
def maxParams : Nat := 8
def maxCallDepth : Nat := 32
def maxStr : Nat := 256
def maxChildren : Nat := 64

def ascii (s : String) : List UInt8 := s.toList.map fun c => .ofNat c.toNat

theorem ascii_ofList (l : List Char) : ascii (String.ofList l) = l.map fun c => .ofNat c.toNat := by
  rw [ascii, String.toList_ofList]

inductive TokenType where
  | int | str | ident
  | plus | minus | star | slash | percent
  | eq | neq | lt | le | gt | ge
  | and | or | not
  | assign
  | lparen | rparen | comma | colon
  | kwIf | kwElif | kwElse
  | kwWhile | kwFor | kwIn
  | kwDef | kwReturn
  | kwBreak | kwContinue
  | kwTrue | kwFalse
  | newline | indent | dedent
  | eof
  deriving DecidableEq

structure Token where
  type : TokenType
  intVal : Int
  strVal : List UInt8
  line : Nat
  deriving DecidableEq

inductive NodeType where
  | int | str | bool | var | assign | binop | unop | call
  | ifNode | whileNode | forNode | defNode | returnNode | breakNode | continueNode | block
  | print | range | input | intCast
  deriving DecidableEq

/-- `child[0..n_children)` is the list; `op` is only set in operator nodes. -/
structure Node where
  type : NodeType
  line : Nat
  intVal : Int
  strVal : List UInt8
  op : TokenType
  children : List Nat
  deriving DecidableEq

/-- A Value; the fields that do not belong to its type are zero. -/
inductive Value where
  | int (v : Int)
  | str (v : List UInt8)
  | bool (v : Bool)
  | none
  deriving DecidableEq

structure Var where
  name : List UInt8
  val : Value
  scope : Int
  deriving DecidableEq

structure FuncDef where
  name : List UInt8
  params : List (List UInt8)
  bodyNode : Option Nat
  deriving DecidableEq

/-- The messages that are put into `error`. -/
inductive GkError where
  | tooManyTokens | unknownCharacter
  | tooManyNodes | tooManyArguments | rparenAfterArguments | rparen | unexpectedToken
  | indentedBlock | blockTooLarge | functionName | lparenAfterName | parameterName | rparenAfterParameters
  | colonAfterDef | colonAfterIf | colonAfterElse | colonAfterWhile
  | forVariable | inAfterVariable | colonAfterFor
  | tooManyStatements
  | undefinedVariable (name : List UInt8)
  | unaryMinus | requiresIntegers | divisionByZero | moduloByZero | unknownOperator
  | intArguments | intArgumentType | intLiteral
  | rangeArguments | rangeArgumentType | forLimit
  | tooManyFunctions
  | undefinedFunction (name : List UInt8)
  | wrongArguments | callDepth | tooManyVariables | unknownNode
  deriving DecidableEq

def GkError.text : GkError → List UInt8
  | tooManyTokens => ascii "too many tokens"
  | unknownCharacter => ascii "Unk"
  | tooManyNodes => ascii "too many AST nodes"
  | tooManyArguments => ascii "too many arguments"
  | rparenAfterArguments => ascii "expected ')' after arguments"
  | rparen => ascii "expected ')'"
  | unexpectedToken => ascii "unexpected token in expression"
  | indentedBlock => ascii "expected indented block"
  | blockTooLarge => ascii "block too large"
  | functionName => ascii "expected function name after 'def'"
  | lparenAfterName => ascii "expected '(' after function name"
  | parameterName => ascii "expected parameter name"
  | rparenAfterParameters => ascii "expected ')' after parameters"
  | colonAfterDef => ascii "expected ':' after def"
  | colonAfterIf => ascii "expected ':' after if condition"
  | colonAfterElse => ascii "expected ':' after else"
  | colonAfterWhile => ascii "expected ':' after while condition"
  | forVariable => ascii "expected variable name after 'for'"
  | inAfterVariable => ascii "expected 'in' after for variable"
  | colonAfterFor => ascii "expected ':' after for iterable"
  | tooManyStatements => ascii "too many top-level statements"
  | undefinedVariable name => (ascii "undefined variable: " ++ name).take (maxStr - 1)
  | unaryMinus => ascii "unary minus requires integer"
  | requiresIntegers => ascii "operator requires integers"
  | divisionByZero => ascii "division by zero"
  | moduloByZero => ascii "modulo by zero"
  | unknownOperator => ascii "unknown operator"
  | intArguments => ascii "int() takes exactly one argument"
  | intArgumentType => ascii "int() requires a string or integer argument"
  | intLiteral => ascii "int() invalid literal"
  | rangeArguments => ascii "range() needs one argument"
  | rangeArgumentType => ascii "range() argument must be integer"
  | forLimit => ascii "for loop requires integer or range()"
  | tooManyFunctions => ascii "too many function definitions"
  | undefinedFunction name => (ascii "undefined function: " ++ name).take (maxStr - 1)
  | wrongArguments => ascii "wrong number of arguments"
  | callDepth => ascii "max call depth exceeded"
  | tooManyVariables => ascii "too many variables"
  | unknownNode => ascii "unknown node type"

/-- An error is set exactly if its first byte is not NUL. -/
theorem GkError.text_ne_nil (e : GkError) : e.text ≠ [] := by
  have hliteral : ∀ c l, ascii (String.ofList (c :: l)) ≠ [] := fun c l => by
    rw [ascii_ofList]
    exact List.cons_ne_nil _ _
  cases e with
  | undefinedVariable name => simp [GkError.text, ascii, maxStr]
  | undefinedFunction name => simp [GkError.text, ascii, maxStr]
  | _ => exact hliteral _ _

/-- GkState, with the input lines to come and the output so far. -/
structure GkState where
  nodes : List Node
  tokens : List Token
  tokPos : Nat
  vars : List Var
  funcs : List FuncDef
  callDepth : Int
  returning : Bool
  breaking : Bool
  continuing : Bool
  returnVal : Value
  error : Option GkError
  input : List (List UInt8)
  output : List UInt8
  deriving DecidableEq

/-- How a run ends before its result: the function reports failure, it reads or
stores outside an array, the quotient of a division does not fit (which is a
fault of the processor), or the loops have used up the fuel of the model. -/
inductive Stop where
  | failed
  | overrun
  | divideError
  | outOfFuel
  deriving DecidableEq

/-- A state with the ones that the parser and the interpreter went through before. -/
structure Run extends GkState where
  past : List GkState
  deriving DecidableEq

/-- All states of a run so far, the latest in front. -/
def Run.moments (s : Run) : List GkState := s.toGkState :: s.past

/-- A function on the state; the state at a stop is kept. -/
abbrev GkM := EStateM Stop Run

/-- Change the state, for the record. -/
def update (f : GkState → GkState) : GkM Unit := fun s => .ok () ⟨f s.toGkState, s.toGkState :: s.past⟩

/-- Set the error and return the failure value. -/
def fail {α : Type} (e : GkError) : GkM α := fun s => .error .failed { s with error := some e }

/-- `gk_init`. -/
def gkInit (s : GkState) : GkState :=
  { s with
    nodes := [], tokens := [], tokPos := 0, vars := [], funcs := [], callDepth := 0
    returning := false, breaking := false, continuing := false, returnVal := .none, error := none }

/-- The state that `gk_init` leaves, with the lines that will be typed in. -/
def freshState (input : List (List UInt8)) : GkState :=
  ⟨[], [], 0, [], [], 0, false, false, false, .none, none, input, []⟩

/-- The beginning of a run. -/
def GkState.start (s : GkState) : Run := ⟨s, []⟩

end GeckoOS.Gk
