import GeckoOS.Gk.Interp
import GeckoOS.Gk.Syntax

/-! The meaning of a program without definitions, said of its syntax tree: an
expression has a value or an error, and a statement ends in one of five ways. -/
namespace GeckoOS.Gk
open Lib

/-- The variables in the order in which they got their first values, the lines
to come and the output so far. -/
structure Store where
  vars : List (List UInt8 × Value)
  input : List (List UInt8)
  output : List UInt8

/-- Nothing if there is no room for a new variable. -/
def Store.set (σ : Store) (name : List UInt8) (val : Value) : Option Store :=
  if name ∈ σ.vars.map Prod.fst then
    some { σ with vars := σ.vars.map fun x => if x.1 = name then (name, val) else x }
  else if σ.vars.length < maxVars then some { σ with vars := σ.vars ++ [(name, val)] }
  else none

def Store.print (σ : Store) (text : List UInt8) : Store := { σ with output := σ.output ++ text }

/-- What an expression comes to. A trap is the division of the least integer by -1. -/
inductive Answer where
  | value (v : Value) (σ : Store)
  | error (e : GkError) (σ : Store)
  | trap

/-- The first error is the last thing that happens. -/
def Answer.bind : Answer → (Value → Store → Answer) → Answer
  | .value v σ, k => k v σ
  | .error e σ, _ => .error e σ
  | .trap, _ => .trap

def Store.readLine (σ : Store) : Answer :=
  .value (.str ((σ.input.headD []).take (maxStr - 2)))
    { σ with input := σ.input.tail, output := σ.output ++ ascii "\n" }

def UnOp.apply (op : UnOp) (v : Value) (σ : Store) : Answer :=
  match op, v with
  | .neg, .int a => .value (.int (wrap32 (-a))) σ
  | .neg, _ => .error .unaryMinus σ
  | .not, v => .value (.bool !isTruthy v) σ

def quotient (a b : Int) (zero : GkError) (result : Int) (σ : Store) : Answer :=
  if b = 0 then .error zero σ
  else if a = -2147483648 ∧ b = -1 then .trap
  else .value (.int result) σ

/-- The operators that need two integers. -/
def BinOp.arith (op : BinOp) (a b : Int) (σ : Store) : Answer :=
  match op with
  | .mul => .value (.int (wrap32 (a * b))) σ
  | .div => quotient a b .divisionByZero (a.tdiv b) σ
  | .mod => quotient a b .moduloByZero (a.tmod b) σ
  | .add => .value (.int (wrap32 (a + b))) σ
  | .sub => .value (.int (wrap32 (a - b))) σ
  | .lt => .value (.bool (a < b)) σ
  | .le => .value (.bool (a ≤ b)) σ
  | .gt => .value (.bool (a > b)) σ
  | .ge => .value (.bool (a ≥ b)) σ
  | .eq | .neq | .and | .or => .error .unknownOperator σ

/-- An operator on two values: strings are joined, all values are compared, and
everything else is arithmetic. -/
def BinOp.apply (op : BinOp) (l r : Value) (σ : Store) : Answer :=
  match op, l, r with
  | .add, .str s, r => .value (.str (strcat s (valToStr r))) σ
  | .eq, l, r => .value (.bool (sameValue l r)) σ
  | .neq, l, r => .value (.bool !sameValue l r) σ
  | op, .int a, .int b => op.arith a b σ
  | _, _, _ => .error .requiresIntegers σ

/-- `int(v)`. -/
def toInt (v : Value) (σ : Store) : Answer :=
  match v with
  | .int v => .value (.int v) σ
  | .str str =>
    match parseInt str with
    | some v => .value (.int v) σ
    | none => .error .intLiteral σ
  | _ => .error .intArgumentType σ

mutual
def Expr.denote : Expr → Store → Answer
  | .int v, σ => .value (.int v) σ
  | .str s, σ => .value (.str s) σ
  | .bool b, σ => .value (.bool b) σ
  | .var name, σ =>
    match σ.vars.lookup name with
    | some v => .value v σ
    | none => .error (.undefinedVariable name) σ
  | .unop op e, σ => (e.denote σ).bind op.apply
  | .binop .and l r, σ => (l.denote σ).bind fun v σ =>
    if isTruthy v then (r.denote σ).bind fun w σ => .value (.bool (isTruthy w)) σ else .value (.bool false) σ
  | .binop .or l r, σ => (l.denote σ).bind fun v σ =>
    if isTruthy v then .value (.bool true) σ else (r.denote σ).bind fun w σ => .value (.bool (isTruthy w)) σ
  | .binop op l r, σ => (l.denote σ).bind fun v σ => (r.denote σ).bind fun w σ => op.apply v w σ
  | .call name args, σ =>
    match callType name with
    | .print => denotePrint args σ
    | .input => denoteInput args σ
    | .intCast => denoteInt args σ
    | .range => .error .unknownNode σ
    | _ => .error (.undefinedFunction name) σ

/-- Each value is printed before the next one is computed. -/
def denotePrint : List Expr → Store → Answer
  | [], σ => .value .none (σ.print (ascii "\n"))
  | e :: es, σ => (e.denote σ).bind fun v σ =>
    denotePrint es (σ.print (valToStr v ++ if es.isEmpty then [] else ascii " "))

def denoteInput : List Expr → Store → Answer
  | [], σ => σ.readLine
  | e :: _, σ => (e.denote σ).bind fun v σ => (σ.print (valToStr v)).readLine

def denoteInt : List Expr → Store → Answer
  | [e], σ => (e.denote σ).bind toInt
  | _, σ => .error .intArguments σ
end

/-- An integer, or this error. -/
def limit (e : GkError) (v : Value) (σ : Store) : Answer :=
  match v with
  | .int n => .value (.int n) σ
  | _ => .error e σ

/-- How often a for loop over this expression is to run. -/
def Expr.passes : Expr → Store → Answer
  | .call name args, σ =>
    if callType name = .range then
      match args with
      | [] => .error .rangeArguments σ
      | e :: _ => (e.denote σ).bind (limit .rangeArgumentType)
    else ((Expr.call name args).denote σ).bind (limit .forLimit)
  | e, σ => (e.denote σ).bind (limit .forLimit)

/-- How a statement ends. -/
inductive Flow where
  | normal | brk | cont | ret
  | error (e : GkError)
  deriving DecidableEq

/-- The loop goes on after such a pass. -/
def Flow.again : Flow → Bool
  | .normal | .cont => true
  | _ => false

/-- All loops around end in the same way. -/
def Flow.exits : Flow → Bool
  | .ret | .error _ => true
  | _ => false

/-- What there is to do: a statement, a list of them, a while loop, or a for loop from its pass `i` on. -/
inductive Task where
  | stmt (st : Stmt)
  | seq (sts : List Stmt)
  | loop (cond : Expr) (body : Stmt)
  | passes (name : List UInt8) (body : Stmt) (i limit : Int)

/-- The expression that a task begins with. -/
def Task.head : Task → Store → Option Answer
  | .stmt (.expr e), σ => some (e.denote σ)
  | .stmt (.assign _ e), σ => some (e.denote σ)
  | .stmt (.ret (some e)), σ => some (e.denote σ)
  | .stmt (.ite cond _), σ => some (cond.denote σ)
  | .stmt (.iteElse cond _ _), σ => some (cond.denote σ)
  | .stmt (.forIn _ iter _), σ => some (iter.passes σ)
  | .loop cond _, σ => some (cond.denote σ)
  | _, _ => none

/-- The executions. A break ends the innermost loop, a continue its pass; the
limit of a for loop is computed once, and its variable is set in front of each pass. -/
inductive Exec : Task → Store → Flow → Store → Prop
  | fault {t : Task} {σ σ' : Store} {x : GkError} (h : t.head σ = some (.error x σ')) : Exec t σ (.error x) σ'
  | expr {e : Expr} {σ σ' : Store} {v : Value} (h : e.denote σ = .value v σ') :
      Exec (.stmt (.expr e)) σ .normal σ'
  | assign {name : List UInt8} {e : Expr} {σ σ' σ'' : Store} {v : Value} (h : e.denote σ = .value v σ')
      (hset : σ'.set name v = some σ'') : Exec (.stmt (.assign name e)) σ .normal σ''
  | assignFull {name : List UInt8} {e : Expr} {σ σ' : Store} {v : Value} (h : e.denote σ = .value v σ')
      (hset : σ'.set name v = none) : Exec (.stmt (.assign name e)) σ (.error .tooManyVariables) σ'
  | retNone {σ : Store} : Exec (.stmt (.ret none)) σ .ret σ
  | ret {e : Expr} {σ σ' : Store} {v : Value} (h : e.denote σ = .value v σ') :
      Exec (.stmt (.ret (some e))) σ .ret σ'
  | brk {σ : Store} : Exec (.stmt .brk) σ .brk σ
  | cont {σ : Store} : Exec (.stmt .cont) σ .cont σ
  | iteTrue {cond : Expr} {body : Stmt} {σ σ' σ'' : Store} {v : Value} {fl : Flow}
      (h : cond.denote σ = .value v σ')
      (hv : isTruthy v = true) (hbody : Exec (.stmt body) σ' fl σ'') : Exec (.stmt (.ite cond body)) σ fl σ''
  | iteFalse {cond : Expr} {body : Stmt} {σ σ' : Store} {v : Value} (h : cond.denote σ = .value v σ')
      (hv : isTruthy v = false) : Exec (.stmt (.ite cond body)) σ .normal σ'
  | elseTrue {cond : Expr} {body els : Stmt} {σ σ' σ'' : Store} {v : Value} {fl : Flow}
      (h : cond.denote σ = .value v σ')
      (hv : isTruthy v = true) (hbody : Exec (.stmt body) σ' fl σ'') :
        Exec (.stmt (.iteElse cond body els)) σ fl σ''
  | elseFalse {cond : Expr} {body els : Stmt} {σ σ' σ'' : Store} {v : Value} {fl : Flow}
      (h : cond.denote σ = .value v σ')
      (hv : isTruthy v = false) (hels : Exec (.stmt els) σ' fl σ'') :
        Exec (.stmt (.iteElse cond body els)) σ fl σ''
  | block {sts : List Stmt} {σ σ' : Store} {fl : Flow}
      (h : Exec (.seq sts) σ fl σ') : Exec (.stmt (.block sts)) σ fl σ'
  | seqEnd {σ : Store} : Exec (.seq []) σ .normal σ
  | seqNext {st : Stmt} {sts : List Stmt} {σ σ' σ'' : Store} {fl : Flow} (h : Exec (.stmt st) σ .normal σ')
      (hrest : Exec (.seq sts) σ' fl σ'') : Exec (.seq (st :: sts)) σ fl σ''
  | seqStop {st : Stmt} {sts : List Stmt} {σ σ' : Store} {fl : Flow} (h : Exec (.stmt st) σ fl σ')
      (hfl : fl ≠ .normal) :
      Exec (.seq (st :: sts)) σ fl σ'
  | loop {cond : Expr} {body : Stmt} {σ σ' : Store} {fl : Flow} (h : Exec (.loop cond body) σ fl σ') :
      Exec (.stmt (.loop cond body)) σ fl σ'
  | loopEnd {cond : Expr} {body : Stmt} {σ σ' : Store} {v : Value} (h : cond.denote σ = .value v σ')
      (hv : isTruthy v = false) : Exec (.loop cond body) σ .normal σ'
  | loopNext {cond : Expr} {body : Stmt} {σ σ' σ'' σ₃ : Store} {v : Value} {fl fl' : Flow}
      (h : cond.denote σ = .value v σ')
      (hv : isTruthy v = true) (hbody : Exec (.stmt body) σ' fl σ'') (hfl : fl.again = true)
      (hrest : Exec (.loop cond body) σ'' fl' σ₃) : Exec (.loop cond body) σ fl' σ₃
  | loopBreak {cond : Expr} {body : Stmt} {σ σ' σ'' : Store} {v : Value} (h : cond.denote σ = .value v σ')
      (hv : isTruthy v = true) (hbody : Exec (.stmt body) σ' .brk σ'') : Exec (.loop cond body) σ .normal σ''
  | loopExit {cond : Expr} {body : Stmt} {σ σ' σ'' : Store} {v : Value} {fl : Flow}
      (h : cond.denote σ = .value v σ')
      (hv : isTruthy v = true) (hbody : Exec (.stmt body) σ' fl σ'')
      (hfl : fl.exits = true) : Exec (.loop cond body) σ fl σ''
  | forIn {name : List UInt8} {iter : Expr} {body : Stmt} {σ σ' σ'' : Store} {n : Int} {fl : Flow}
      (h : iter.passes σ = .value (.int n) σ') (hrest : Exec (.passes name body 0 n) σ' fl σ'') :
      Exec (.stmt (.forIn name iter body)) σ fl σ''
  | passesEnd {name : List UInt8} {body : Stmt} {i n : Int} {σ : Store}
      (hi : n ≤ i) : Exec (.passes name body i n) σ .normal σ
  | passesFull {name : List UInt8} {body : Stmt} {i n : Int} {σ : Store} (hi : i < n)
      (hset : σ.set name (.int i) = none) :
      Exec (.passes name body i n) σ (.error .tooManyVariables) σ
  | passesNext {name : List UInt8} {body : Stmt} {i n : Int} {σ σ' σ'' σ₃ : Store} {fl fl' : Flow} (hi : i < n)
      (hset : σ.set name (.int i) = some σ') (hbody : Exec (.stmt body) σ' fl σ'') (hfl : fl.again = true)
      (hrest : Exec (.passes name body (i + 1) n) σ'' fl' σ₃) : Exec (.passes name body i n) σ fl' σ₃
  | passesBreak {name : List UInt8} {body : Stmt} {i n : Int} {σ σ' σ'' : Store} (hi : i < n)
      (hset : σ.set name (.int i) = some σ') (hbody : Exec (.stmt body) σ' .brk σ'') :
      Exec (.passes name body i n) σ .normal σ''
  | passesExit {name : List UInt8} {body : Stmt} {i n : Int} {σ σ' σ'' : Store} {fl : Flow} (hi : i < n)
      (hset : σ.set name (.int i) = some σ') (hbody : Exec (.stmt body) σ' fl σ'') (hfl : fl.exits = true) :
      Exec (.passes name body i n) σ fl σ''

end GeckoOS.Gk
