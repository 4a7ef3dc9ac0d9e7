import Lox.Machine
import Lox.Operators

/-! The evaluation of expressions and the execution of statements. Fuel bounds how deep the
evaluation nests; every finished answer is the same for any larger amount. -/
namespace Lox
open Lox.Action Machine

/-- What can be called. -/
inductive Callable where
  | native (n : Native)
  | function (id : FunctionId)
  | classObject (id : ClassId)
  deriving DecidableEq, Repr

def Value.callable? : Value → Option Callable
  | .native n => some (.native n)
  | .function id => some (.function id)
  | .classObject id => some (.classObject id)
  | _ => none

def Callable.arity (h : Heap) : Callable → Nat
  | native n => n.arity
  | function id => (h.function id).arity
  | classObject id => h.classArity id

/-- What a logical operator makes of its left operand alone, if that decides it. -/
def BinaryOp.settled? : BinaryOp → Value → Option Value
  | .or, v => if v.isTruthy then some v else none
  | .and, v => if v.isTruthy then none else some v
  | .strict _, _ => none

/-- The result of an operator whose left operand left it open. -/
def BinaryOp.finish {σ : Type} (op : BinaryOp) (left right : Value) (line : Nat) :
    Action σ Value :=
  match op with
  | .or | .and => pure right
  | .strict op => lift line (op.apply left right)

mutual
def evaluate : Nat → Expr → Action Machine Value
  | 0, _ => fuelSpent
  | _ + 1, .literal value _ => pure value.value
  | fuel + 1, .group inner _ => evaluate fuel inner
  | fuel + 1, .unary op right line => do
    let v ← evaluate fuel right
    lift line (op.apply v)
  | fuel + 1, .binary left op right line => do
    let v ← evaluate fuel left
    match op.settled? v with
    | some settled => pure settled
    | none =>
      let w ← evaluate fuel right
      op.finish v w line
  | _ + 1, .read o line => read o line
  | _ + 1, .this o line => read o line
  | fuel + 1, .assign target value line => do
    let v ← evaluate fuel value
    write target v line
    pure v
  | fuel + 1, .get object name line => do
    match ← evaluate fuel object with
    | .object id => property id name line
    | _ => failRuntime line .noProperties
  | fuel + 1, .set object name value line => do
    match ← evaluate fuel object with
    | .object id =>
      let v ← evaluate fuel value
      setField id name v
      pure v
    | _ => failRuntime line .noFields
  | fuel + 1, .call callee arguments line => do
    let f ← evaluate fuel callee
    match f.callable? with
    | none => failRuntime line .notCallable
    | some c =>
      let arity ← inspect fun m => c.arity m.heap
      if arguments.length ≠ arity then failRuntime line (.wrongArity arity arguments.length)
      else
        let vs ← evaluateAll fuel arguments
        call fuel c vs line

def evaluateAll : Nat → List Expr → Action Machine (List Value)
  | 0, _ => fuelSpent
  | _ + 1, [] => pure []
  | fuel + 1, e :: rest => do
    let v ← evaluate fuel e
    let vs ← evaluateAll fuel rest
    pure (v :: vs)

/-- A call whose callee and arguments are evaluated and agree in number. -/
def call : Nat → Callable → List Value → Nat → Action Machine Value
  | 0, _, _, _ => fuelSpent
  | _ + 1, .native .clock, _, line => asCall line tick
  | fuel + 1, .function id, vs, line => asCall line do
    let f ← inspect (·.heap.function id)
    callFunction fuel f vs line
  | fuel + 1, .classObject id, vs, line => asCall line do
    let receiver ← allocate (·.addInstance id)
    match ← inspect (·.heap.initializer? id) with
    | none => pure (.object receiver)
    | some method =>
      let bound ← allocate (·.bindMethod method receiver)
      let f ← inspect (·.heap.function bound)
      let _ ← callFunction fuel f vs line
      pure (.object receiver)

/-- Runs the body of a function in a new frame inside its closure, which holds the arguments. -/
def callFunction : Nat → Function → List Value → Nat → Action Machine Value
  | 0, _, _, _ => fuelSpent
  | fuel + 1, f, vs, line => do
    let frame ← allocate (·.addFrame f.closure)
    defineAll frame (f.decl.params.zip vs)
    match ← inFrame frame (executeAll fuel f.decl.body) with
    | .normal => pure .nil
    | .returned v => pure v
    | .exit e =>
      let signal ← inspect fun m => (Signal.exit e).description m.heap
      fail line (.internal (.escapedFunction signal f.decl.name))

def execute : Nat → Stmt → Action Machine Signal
  | 0, _ => fuelSpent
  | fuel + 1, .expression e _ => do
    let _ ← evaluate fuel e
    pure .normal
  | fuel + 1, .print e _ => do
    let v ← evaluate fuel e
    let text ← inspect fun m => v.text m.heap
    print text
    pure .normal
  | fuel + 1, .var decl => do
    declareVar fuel decl
    pure .normal
  | _ + 1, .function decl => do
    let frame ← inspect (·.current)
    let id ← allocate (·.addFunction ⟨decl, frame⟩)
    define decl.name (.function id) decl.line
    pure .normal
  | _ + 1, .classDecl name methods line => do
    define name .nil line
    let frame ← inspect (·.current)
    let table ← allocate (·.addMethods frame methods [])
    let id ← allocate (·.addClass ⟨name, table⟩)
    assignHere name (.classObject id)
    pure .normal
  | fuel + 1, .block statements _ => inNewFrame (executeAll fuel statements)
  | fuel + 1, .ifThen condition thenBranch _ => do
    let v ← evaluate fuel condition
    if v.isTruthy then execute fuel thenBranch else pure .normal
  | fuel + 1, .ifElse condition thenBranch elseBranch _ => do
    let v ← evaluate fuel condition
    if v.isTruthy then execute fuel thenBranch else execute fuel elseBranch
  | fuel + 1, .whileLoop condition body _ => loop fuel (some condition) none body
  | fuel + 1, .forLoop .nothing condition increment body _ => loop fuel condition increment body
  | fuel + 1, .forLoop (.evaluate e) condition increment body _ => do
    let _ ← evaluate fuel e
    loop fuel condition increment body
  | fuel + 1, .forLoop (.declare decl) condition increment body _ => inNewFrame do
    declareVar fuel decl
    loop fuel condition increment body
  | _ + 1, .loopExit e _ => pure (.exit e)
  | _ + 1, .returns none _ => pure (.returned .nil)
  | fuel + 1, .returns (some e) _ => do
    let v ← evaluate fuel e
    pure (.returned v)

/-- A variable without an initializer starts as nil. -/
def declareVar : Nat → VarDecl → Action Machine Unit
  | 0, _ => fuelSpent
  | _ + 1, ⟨name, none, line⟩ => define name .nil line
  | fuel + 1, ⟨name, some e, line⟩ => do
    let v ← evaluate fuel e
    define name v line

/-- Statements in order, up to the first that does not end normally. -/
def executeAll : Nat → List Stmt → Action Machine Signal
  | 0, _ => fuelSpent
  | _ + 1, [] => pure .normal
  | fuel + 1, s :: rest => do
    match ← execute fuel s with
    | .normal => executeAll fuel rest
    | signal => pure signal

/-- Whether an absent or present condition holds. -/
def holds : Nat → Option Expr → Action Machine Bool
  | 0, _ => fuelSpent
  | _ + 1, none => pure true
  | fuel + 1, some e => do
    let v ← evaluate fuel e
    pure v.isTruthy

/-- The rounds of a loop. The increment ends every round that is not left by `break` or
`return`. -/
def loop : Nat → Option Expr → Option Expr → Stmt → Action Machine Signal
  | 0, _, _, _ => fuelSpent
  | fuel + 1, condition, increment, body => do
    if ← holds fuel condition then
      match ← execute fuel body with
      | .exit .toEnd => pure .normal
      | .returned v => pure (.returned v)
      | _ =>
        let _ ← step fuel increment
        loop fuel condition increment body
    else pure .normal

def step : Nat → Option Expr → Action Machine Unit
  | 0, _ => fuelSpent
  | _ + 1, none => pure ()
  | fuel + 1, some e => do
    let _ ← evaluate fuel e
    pure ()
end

end Lox
