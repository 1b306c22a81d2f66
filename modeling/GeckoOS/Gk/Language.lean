import GeckoOS.Gk.Reference
import Mathlib.Data.List.Nodup

/-! The meaning of whole programs, functions included, said of their syntax trees: the
scopes are a stack, jumps are results, and the first error ends everything. -/
namespace GeckoOS.Gk
open Lib

theorem names_replaced {vars : List (List UInt8 × Value)} (name : List UInt8) (val : Value) :
    (vars.map fun x => if x.1 = name then (name, val) else x).map Prod.fst = vars.map Prod.fst := by
  rw [List.map_map]
  refine List.map_congr_left fun x _ => ?_
  by_cases hx : x.1 = name <;> simp [hx]

/-- The variables of a scope in the order in which they got their first values. -/
structure Frame where
  vars : List (List UInt8 × Value)
  distinct : (vars.map Prod.fst).Nodup

namespace Frame

def empty : Frame := ⟨[], List.nodup_nil⟩

def names (f : Frame) : List (List UInt8) := f.vars.map Prod.fst

instance decMem (name : List UInt8) (f : Frame) : Decidable (name ∈ f.names) :=
  decidable_of_iff (f.vars.any fun x => x.1 = name) (by simp [names])

def set (f : Frame) (name : List UInt8) (val : Value) : Frame :=
  if h : name ∈ f.names then
    ⟨f.vars.map fun x => if x.1 = name then (name, val) else x, by
      rw [names_replaced]
      exact f.distinct⟩
  else
    ⟨f.vars ++ [(name, val)], by
      rw [List.map_append]
      exact f.distinct.append (List.nodup_singleton _) (List.disjoint_singleton.mpr h)⟩

end Frame

structure Func where
  params : List (List UInt8)
  body : Stmt

/-- The scopes of the calls that are running, the innermost apart; the functions in the
order of their definitions, the lines to come and the output so far. -/
structure World where
  top : Frame
  outer : List Frame
  funcs : List (List UInt8 × Func)
  input : List (List UInt8)
  output : List UInt8

/-- How a program ends early. A trap is the division of the least integer by -1. -/
inductive Halt where
  | error (e : GkError)
  | trap
  | outOfFuel
  deriving DecidableEq

abbrev Lang := EStateM Halt World

/-- How a statement ends. -/
inductive Ending where
  | normal (v : Value)
  | brk
  | cont
  | ret (v : Value)
  deriving DecidableEq

/-! ### What all statements use -/

/-- The innermost variable of this name. -/
def World.lookup (w : World) (name : List UInt8) : Option Value :=
  (w.top :: w.outer).findSome? fun f => f.vars.lookup name

/-- All variables there are. -/
def World.count (w : World) : Nat := ((w.top :: w.outer).flatMap Frame.vars).length

/-- A variable of the innermost scope. -/
def assign (name : List UInt8) (val : Value) : Lang Unit := do
  let w ← get
  if name ∈ w.top.names ∨ w.count < maxVars then set { w with top := w.top.set name val }
  else throw (.error .tooManyVariables)

def say (text : List UInt8) : Lang Unit := modify fun w => { w with output := w.output ++ text }

/-- A line of the input, of which 254 characters are read. -/
def ask : Lang Value := do
  let w ← get
  set { w with input := w.input.tail, output := w.output ++ ascii "\n" }
  return .str ((w.input.headD []).take (maxStr - 2))

/-- The operators do not look at a store. -/
def Answer.lang : Answer → Lang Value
  | .value v _ => return v
  | .error e _ => throw (.error e)
  | .trap => throw .trap

def idle : Store := ⟨[], [], []⟩

/-- The number of passes of a for loop. -/
def passCount (e : GkError) (v : Value) : Lang Int :=
  match v with
  | .int n => return n
  | _ => throw (.error e)

def defineFunc (name : List UInt8) (f : Func) : Lang Unit := do
  let w ← get
  if maxFuncs ≤ w.funcs.length then throw (.error .tooManyFunctions)
  else set { w with funcs := w.funcs ++ [(name, f)] }

def assignAll : List (List UInt8 × Value) → Lang Unit
  | [] => return ()
  | (name, val) :: rest => do
    assign name val
    assignAll rest

/-! ### Expressions and statements, given the meaning of their parts -/

section
variable (ev : Expr → Lang Value) (ex : Stmt → Lang Ending)

def sayAll : List Expr → Lang Value
  | [] => do
    say (ascii "\n")
    return .none
  | e :: es => do
    let v ← ev e
    say (valToStr v ++ if es.isEmpty then [] else ascii " ")
    sayAll es

def evalAll : List Expr → Lang (List Value)
  | [] => return []
  | e :: es => do
    let v ← ev e
    return v :: (← evalAll es)

/-- A body in a scope of its own; without a return its last statement has the value. -/
def inScope (params : List (List UInt8 × Value)) (body : Stmt) : Lang Value := do
  modify fun w => { w with top := .empty, outer := w.top :: w.outer }
  assignAll params
  let e ← ex body
  modify fun w => { w with top := w.outer.headD .empty, outer := w.outer.tail }
  match e with
  | .normal v | .ret v => return v
  | .brk | .cont => return .none

def callFunc (name : List UInt8) (args : List Expr) : Lang Value := do
  let w ← get
  match w.funcs.lookup name with
  | none => throw (.error (.undefinedFunction name))
  | some f =>
    if args.length ≠ f.params.length then throw (.error .wrongArguments)
    else if maxCallDepth ≤ w.outer.length then throw (.error .callDepth)
    else do
      let vs ← evalAll ev args
      inScope ex (f.params.zip vs) f.body

def sayAndAsk : List Expr → Lang Value
  | [] => ask
  | e :: _ => do
    let v ← ev e
    say (valToStr v)
    ask

def castToInt : List Expr → Lang Value
  | [e] => do
    let v ← ev e
    (toInt v idle).lang
  | _ => throw (.error .intArguments)

def callStep (name : List UInt8) (args : List Expr) : Lang Value :=
  match callType name with
  | .print => sayAll ev args
  | .input => sayAndAsk ev args
  | .intCast => castToInt ev args
  | .range => throw (.error .unknownNode)
  | _ => callFunc ev ex name args

def exprStep : Expr → Lang Value
  | .int v => return .int v
  | .str s => return .str s
  | .bool b => return .bool b
  | .var name => do
    match (← get).lookup name with
    | some v => return v
    | none => throw (.error (.undefinedVariable name))
  | .unop op e => do
    let v ← ev e
    (op.apply v idle).lang
  | .binop .and l r => do
    let v ← ev l
    if isTruthy v then return .bool (isTruthy (← ev r)) else return .bool false
  | .binop .or l r => do
    let v ← ev l
    if isTruthy v then return .bool true else return .bool (isTruthy (← ev r))
  | .binop op l r => do
    let v ← ev l
    let w ← ev r
    (op.apply v w idle).lang
  | .call name args => callStep ev ex name args

def rangeLimit : List Expr → Lang Int
  | [] => throw (.error .rangeArguments)
  | e :: _ => do passCount .rangeArgumentType (← ev e)

def limitOf : Expr → Lang Int
  | .call name args =>
    if callType name = .range then rangeLimit ev args else do passCount .forLimit (← ev (.call name args))
  | e => do passCount .forLimit (← ev e)

def sequence : List Stmt → Value → Lang Ending
  | [], last => return .normal last
  | st :: sts, _ => do
    match ← ex st with
    | .normal v => sequence sts v
    | e => return e

/-- Behind a pass of a loop. -/
def Ending.next (e : Ending) (rest : Value → Lang Ending) : Lang Ending :=
  match e with
  | .normal v => rest v
  | .cont => rest .none
  | .brk => return .normal .none
  | .ret v => return .ret v

def loopWhile (cond : Expr) (body : Stmt) : Nat → Value → Lang Ending
  | 0, _ => throw .outOfFuel
  | fuel+1, last => do
    let v ← ev cond
    if isTruthy v then do
      let e ← ex body
      e.next (loopWhile cond body fuel)
    else return .normal last

/-- The passes `i`, `i + 1`, .. as many as are left. -/
def loopFor (name : List UInt8) (body : Stmt) : Nat → Int → Value → Lang Ending
  | 0, _, last => return .normal last
  | left+1, i, _ => do
    assign name (.int i)
    let e ← ex body
    e.next (loopFor name body left (i + 1))

def stmtStep (fuel : Nat) : Stmt → Lang Ending
  | .expr e => do return .normal (← exprStep ev ex e)
  | .assign name e => do
    let v ← ev e
    assign name v
    return .normal v
  | .ret none => return .ret .none
  | .ret (some e) => do return .ret (← ev e)
  | .brk => return .brk
  | .cont => return .cont
  | .define name params body => do
    defineFunc name ⟨params.take maxParams, body⟩
    return .normal .none
  | .ite cond body => do
    let v ← ev cond
    if isTruthy v then ex body else return .normal .none
  | .iteElse cond body els => do
    let v ← ev cond
    if isTruthy v then ex body else ex els
  | .loop cond body => loopWhile ev ex cond body fuel .none
  | .forIn name iter body => do
    let n ← limitOf ev iter
    loopFor ex name body n.toNat 0 .none
  | .block sts => sequence ex sts .none

end

structure Meaning where
  expr : Expr → Lang Value
  stmt : Stmt → Lang Ending

/-- With fuel for this depth of syntax trees and calls, and for as many passes of while loops. -/
def meaning : Nat → Meaning
  | 0 => ⟨fun _ => throw .outOfFuel, fun _ => throw .outOfFuel⟩
  | fuel+1 =>
    let m := meaning fuel
    ⟨exprStep m.expr m.stmt, stmtStep m.expr m.stmt fuel⟩

/-! A break or continue stands in a loop of the same function. -/
mutual
def Stmt.jumpsFit (inLoop : Bool) : Stmt → Bool
  | .brk | .cont => inLoop
  | .define _ _ body => body.jumpsFit false
  | .loop _ body | .forIn _ _ body => body.jumpsFit true
  | .ite _ body => body.jumpsFit inLoop
  | .iteElse _ body els => body.jumpsFit inLoop && els.jumpsFit inLoop
  | .block sts => allJumpsFit inLoop sts
  | .expr _ | .assign _ _ | .ret _ => true

def allJumpsFit (inLoop : Bool) : List Stmt → Bool
  | [] => true
  | st :: sts => st.jumpsFit inLoop && allJumpsFit inLoop sts
end

end GeckoOS.Gk
