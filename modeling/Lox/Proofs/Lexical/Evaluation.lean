import Lox.Session
import Lox.Proofs.Lexical.Store

/-! Evaluation by lexical scoping: the visible names are handed down the tree and are those from
before when a scope has ended. No depth of an occurrence is looked at. -/
namespace Lox.Lexical
open Lox.Action

mutual
def evaluate : Nat → Env → Expr → Action Store Value
  | 0, _, _ => fuelSpent
  | _ + 1, _, .literal value _ => pure value.value
  | fuel + 1, env, .group inner _ => evaluate fuel env inner
  | fuel + 1, env, .unary op right line => do
    let v ← evaluate fuel env right
    lift line (op.apply v)
  | fuel + 1, env, .binary left op right line => do
    let v ← evaluate fuel env left
    match op.settled? v with
    | some settled => pure settled
    | none =>
      let w ← evaluate fuel env right
      op.finish v w line
  | _ + 1, env, .read o line => read env o.name line
  | _ + 1, env, .this o line => read env o.name line
  | fuel + 1, env, .assign target value line => do
    let v ← evaluate fuel env value
    write env target.name v line
    pure v
  | fuel + 1, env, .get object name line => do
    match ← evaluate fuel env object with
    | .object id => property id name line
    | _ => failRuntime line .noProperties
  | fuel + 1, env, .set object name value line => do
    match ← evaluate fuel env object with
    | .object id =>
      let v ← evaluate fuel env value
      setField id name v
      pure v
    | _ => failRuntime line .noFields
  | fuel + 1, env, .call callee arguments line => do
    let f ← evaluate fuel env callee
    match f.callable? with
    | none => failRuntime line .notCallable
    | some c =>
      let arity ← inspect fun s => c.arity s.objects
      if arguments.length ≠ arity then failRuntime line (.wrongArity arity arguments.length)
      else
        let vs ← evaluateAll fuel env arguments
        call fuel c vs line

def evaluateAll : Nat → Env → List Expr → Action Store (List Value)
  | 0, _, _ => fuelSpent
  | _ + 1, _, [] => pure []
  | fuel + 1, env, e :: rest => do
    let v ← evaluate fuel env e
    let vs ← evaluateAll fuel env rest
    pure (v :: vs)

/-- A call whose callee and arguments are evaluated and agree in number. -/
def call : Nat → Callable → List Value → Nat → Action Store Value
  | 0, _, _, _ => fuelSpent
  | _ + 1, .native .clock, _, line => asCall line tick
  | fuel + 1, .function id, vs, line => asCall line do
    let c ← inspect (·.function id)
    callFunction fuel c vs
  | fuel + 1, .classObject id, vs, line => asCall line do
    let receiver ← allocate (·.addInstance id)
    match ← inspect (·.objects.initializer? id) with
    | none => pure (.object receiver)
    | some method =>
      let bound ← allocate (·.bindMethod method receiver)
      let c ← inspect (·.function bound)
      let _ ← callFunction fuel c vs
      pure (.object receiver)

/-- Runs the body of a function, which sees the names from where it was made and the
parameters. -/
def callFunction : Nat → Closure → List Value → Action Store Value
  | 0, _, _ => fuelSpent
  | fuel + 1, c, vs => do
    let env ← declareAll c.env.enter (c.decl.params.zip vs)
    match ← executeAll fuel env c.decl.body with
    | .returned v => pure v
    | _ => pure .nil

/-- Beside how the statement ends, the names that those behind it see. -/
def execute : Nat → Env → Stmt → Action Store (Signal × Env)
  | 0, _, _ => fuelSpent
  | fuel + 1, env, .expression e _ => do
    let _ ← evaluate fuel env e
    pure (.normal, env)
  | fuel + 1, env, .print e _ => do
    let v ← evaluate fuel env e
    let text ← inspect fun s => v.text s.objects
    print text
    pure (.normal, env)
  | fuel + 1, env, .var decl => do
    let env ← declareVar fuel env decl
    pure (.normal, env)
  | _ + 1, env, .function decl => do
    let env ← declareFunction env decl
    pure (.normal, env)
  | _ + 1, env, .classDecl name methods _ => do
    let env ← declare env name .nil
    let table ← allocate (·.addMethods env methods [])
    let id ← allocate (·.addClass ⟨name, table⟩)
    assignHere env name (.classObject id)
    pure (.normal, env)
  | fuel + 1, env, .block statements _ => do
    let signal ← executeAll fuel env.enter statements
    pure (signal, env)
  | fuel + 1, env, .ifThen condition thenBranch _ => do
    let v ← evaluate fuel env condition
    if v.isTruthy then execute fuel env thenBranch else pure (.normal, env)
  | fuel + 1, env, .ifElse condition thenBranch elseBranch _ => do
    let v ← evaluate fuel env condition
    if v.isTruthy then execute fuel env thenBranch else execute fuel env elseBranch
  | fuel + 1, env, .whileLoop condition body _ => do
    let signal ← loop fuel env (some condition) none body
    pure (signal, env)
  | fuel + 1, env, .forLoop .nothing condition increment body _ => do
    let signal ← loop fuel env condition increment body
    pure (signal, env)
  | fuel + 1, env, .forLoop (.evaluate e) condition increment body _ => do
    let _ ← evaluate fuel env e
    let signal ← loop fuel env condition increment body
    pure (signal, env)
  | fuel + 1, env, .forLoop (.declare decl) condition increment body _ => do
    let inner ← declareVar fuel env.enter decl
    let signal ← loop fuel inner condition increment body
    pure (signal, env)
  | _ + 1, env, .loopExit e _ => pure (.exit e, env)
  | _ + 1, env, .returns none _ => pure (.returned .nil, env)
  | fuel + 1, env, .returns (some e) _ => do
    let v ← evaluate fuel env e
    pure (.returned v, env)

/-- A variable without an initializer starts as nil. -/
def declareVar : Nat → Env → VarDecl → Action Store Env
  | 0, _, _ => fuelSpent
  | _ + 1, env, ⟨name, none, _⟩ => declare env name .nil
  | fuel + 1, env, ⟨name, some e, _⟩ => do
    let v ← evaluate fuel env e
    declare env name v

/-- Statements in order, up to the first that does not end normally. -/
def executeAll : Nat → Env → List Stmt → Action Store Signal
  | 0, _, _ => fuelSpent
  | _ + 1, _, [] => pure .normal
  | fuel + 1, env, s :: rest => do
    match ← execute fuel env s with
    | (.normal, env) => executeAll fuel env rest
    | (signal, _) => pure signal

/-- Whether an absent or present condition holds. -/
def holds : Nat → Env → Option Expr → Action Store Bool
  | 0, _, _ => fuelSpent
  | _ + 1, _, none => pure true
  | fuel + 1, env, some e => do
    let v ← evaluate fuel env e
    pure v.isTruthy

/-- The rounds of a loop. -/
def loop : Nat → Env → Option Expr → Option Expr → Stmt → Action Store Signal
  | 0, _, _, _, _ => fuelSpent
  | fuel + 1, env, condition, increment, body => do
    if ← holds fuel env condition then
      match ← execute fuel env body with
      | (.exit .toEnd, _) => pure .normal
      | (.returned v, _) => pure (.returned v)
      | _ =>
        let _ ← step fuel env increment
        loop fuel env condition increment body
    else pure .normal

def step : Nat → Env → Option Expr → Action Store Unit
  | 0, _, _ => fuelSpent
  | _ + 1, _, none => pure ()
  | fuel + 1, env, some e => do
    let _ ← evaluate fuel env e
    pure ()
end

/-- Executes top-level statements in order. -/
def executeProgram (fuel : Nat) : List Stmt → Action Store Unit
  | [] => pure ()
  | s :: rest => do
    let _ ← execute fuel .top s
    executeProgram fuel rest

namespace Store

/-- Runs a program up to its end or its first failure. -/
def interpret (fuel : Nat) (program : List Stmt) (s : Store) : Option (Option Diagnostic × Store) :=
  match executeProgram fuel program s with
  | .done () s => some (none, s)
  | .failed d s => some (some d, { s with toWorld := s.fail })
  | .outOfFuel => none

/-- Compiles a source and runs it. -/
def run (fuel : Nat) (source : String) (s : Store) : Option (Option Failure × Store) :=
  match compile source with
  | .error f => some (some f, s)
  | .ok program =>
    (interpret fuel program s).map fun r => (r.1.map fun d => ⟨.runtime, [d]⟩, r.2)

/-- Runs one source and notes what it did. -/
def enterSource (fuel : Nat) (source : String) (s : Store) : Option (Entry × Store) :=
  let start := s.sink.written.size
  (s.run fuel source).map fun r => (⟨r.2.printedFrom start, r.1, r.2.hadError⟩, r.2)

/-- Runs sources one after the other, failing ones included. -/
def session (fuel : Nat) : List String → Store → Option (List Entry × Store)
  | [], s => some ([], s)
  | source :: rest, s => do
    let (entry, s) ← s.enterSource fuel source
    let (entries, s) ← s.session fuel rest
    pure (entry :: entries, s)

end Store
end Lox.Lexical
