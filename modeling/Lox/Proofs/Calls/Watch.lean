import Lox.Program

/-! A second evaluation, without a call limit and without a count in the machine. It notes every
call that it starts, and how many calls are active then is known from where the call stands. -/
namespace Lox

/-- A call that starts, with its callee and its arguments evaluated: its line, the number of calls
that are active, this one included, and what is around the program. -/
structure CallNote where
  line : Nat
  active : Nat
  world : World

/-- An action inside so many active calls. It tells the calls that it starts, in order, however it
ends. -/
def Watch (α : Type) : Type := Nat → Machine → List CallNote × Answer Machine α

namespace Watch

variable {α β : Type}

/-- An action without calls. -/
def quiet (x : Action Machine α) : Watch α := fun _ m => ([], x m)

@[inline] protected def bind (w : Watch α) (f : α → Watch β) : Watch β := fun active m =>
  match w active m with
  | (notes, .done a m') => (notes ++ (f a active m').1, (f a active m').2)
  | (notes, .failed d m') => (notes, .failed d m')
  | (notes, .outOfFuel) => (notes, .outOfFuel)

instance : Monad Watch where
  pure a := quiet (pure a)
  bind := Watch.bind

theorem bind_apply (w : Watch α) (f : α → Watch β) (active : Nat) (m : Machine) :
    (w >>= f) active m = match w active m with
      | (notes, .done a m') => (notes ++ (f a active m').1, (f a active m').2)
      | (notes, .failed d m') => (notes, .failed d m')
      | (notes, .outOfFuel) => (notes, .outOfFuel) := rfl

def fuelSpent : Watch α := quiet Action.fuelSpent

def failRuntime (line : Nat) (f : RuntimeFault) : Watch α := quiet (Action.failRuntime line f)

def inspect (f : Machine → α) : Watch α := quiet (Action.inspect f)

def allocate (f : Heap → α × Heap) : Watch α := quiet (Machine.allocate f)

/-- Runs `w` with `frame` current and makes the old frame current again, however `w` ends. -/
def inFrame (frame : FrameId) (w : Watch α) : Watch α := fun active m =>
  let r := w active { m with current := frame }
  match r.2 with
  | .done a m' => (r.1, .done a { m' with current := m.current })
  | .failed d m' => (r.1, .failed d { m' with current := m.current })
  | .outOfFuel => (r.1, .outOfFuel)

/-- Runs `w` with `frame` around it as a new inner frame. -/
def inNewFrame (w : Watch α) : Watch α := do
  let outer ← inspect (·.current)
  let frame ← allocate (·.addFrame outer)
  inFrame frame w

/-- Runs `w` inside one more call. -/
def asCall (line : Nat) (w : Watch α) : Watch α := fun active m =>
  let r := w (active + 1) m
  (⟨line, active + 1, m.toWorld⟩ :: r.1, r.2)

end Watch

namespace Watched
open Watch

mutual
def evaluate : Nat → Expr → Watch Value
  | 0, _ => fuelSpent
  | _ + 1, .literal value _ => pure value.value
  | fuel + 1, .group inner _ => evaluate fuel inner
  | fuel + 1, .unary op right line => do
    let v ← evaluate fuel right
    quiet (.lift line (op.apply v))
  | fuel + 1, .binary left op right line => do
    let v ← evaluate fuel left
    match op.settled? v with
    | some settled => pure settled
    | none =>
      let w ← evaluate fuel right
      quiet (op.finish v w line)
  | _ + 1, .read o line => quiet (Machine.read o line)
  | _ + 1, .this o line => quiet (Machine.read o line)
  | fuel + 1, .assign target value line => do
    let v ← evaluate fuel value
    quiet (Machine.write target v line)
    pure v
  | fuel + 1, .get object name line => do
    match ← evaluate fuel object with
    | .object id => quiet (Machine.property id name line)
    | _ => failRuntime line .noProperties
  | fuel + 1, .set object name value line => do
    match ← evaluate fuel object with
    | .object id =>
      let v ← evaluate fuel value
      quiet (Machine.setField id name v)
      pure v
    | _ => failRuntime line .noFields
  | fuel + 1, .call callee arguments line => do
    let f ← evaluate fuel callee
    match f.callable? with
    | none => failRuntime line .notCallable
    | some c =>
      let arity ← inspect fun m => c.arity m.heap
      if arguments.length ≠ arity then failRuntime line (.wrongArity arity arguments.length)
      else
        let vs ← evaluateAll fuel arguments
        call fuel c vs line

def evaluateAll : Nat → List Expr → Watch (List Value)
  | 0, _ => fuelSpent
  | _ + 1, [] => pure []
  | fuel + 1, e :: rest => do
    let v ← evaluate fuel e
    let vs ← evaluateAll fuel rest
    pure (v :: vs)

/-- A class and its initializer are one call. -/
def call : Nat → Callable → List Value → Nat → Watch Value
  | 0, _, _, _ => fuelSpent
  | _ + 1, .native .clock, _, line => asCall line (quiet Machine.tick)
  | fuel + 1, .function id, vs, line => asCall line do
    let f ← inspect (·.heap.function id)
    callFunction fuel f vs line
  | fuel + 1, .classObject id, vs, line => asCall line do
    let receiver ← allocate (·.addInstance id)
    match ← inspect (·.heap.initializer? id) with
    | none => pure (.object receiver)
    | some method =>
      let bound ← allocate (·.bindMethod method receiver)
      let f ← inspect (·.heap.function bound)
      let _ ← callFunction fuel f vs line
      pure (.object receiver)

def callFunction : Nat → Function → List Value → Nat → Watch Value
  | 0, _, _, _ => fuelSpent
  | fuel + 1, f, vs, line => do
    let frame ← allocate (·.addFrame f.closure)
    quiet (Machine.defineAll frame (f.decl.params.zip vs))
    match ← inFrame frame (executeAll fuel f.decl.body) with
    | .normal => pure .nil
    | .returned v => pure v
    | .exit e =>
      let signal ← inspect fun m => (Signal.exit e).description m.heap
      quiet (.fail line (.internal (.escapedFunction signal f.decl.name)))

def execute : Nat → Stmt → Watch Signal
  | 0, _ => fuelSpent
  | fuel + 1, .expression e _ => do
    let _ ← evaluate fuel e
    pure .normal
  | fuel + 1, .print e _ => do
    let v ← evaluate fuel e
    let text ← inspect fun m => v.text m.heap
    quiet (Machine.print text)
    pure .normal
  | fuel + 1, .var decl => do
    declareVar fuel decl
    pure .normal
  | _ + 1, .function decl => do
    let frame ← inspect (·.current)
    let id ← allocate (·.addFunction ⟨decl, frame⟩)
    quiet (Machine.define decl.name (.function id) decl.line)
    pure .normal
  | _ + 1, .classDecl name methods line => do
    quiet (Machine.define name .nil line)
    let frame ← inspect (·.current)
    let table ← allocate (·.addMethods frame methods [])
    let id ← allocate (·.addClass ⟨name, table⟩)
    quiet (Machine.assignHere name (.classObject id))
    pure .normal
  | fuel + 1, .block statements _ => inNewFrame (executeAll fuel statements)
  | fuel + 1, .ifThen condition thenBranch _ => do
    let v ← evaluate fuel condition
    if v.isTruthy then execute fuel thenBranch else pure .normal
  | fuel + 1, .ifElse condition thenBranch elseBranch _ => do
    let v ← evaluate fuel condition
    if v.isTruthy then execute fuel thenBranch else execute fuel elseBranch
  | fuel + 1, .whileLoop condition body _ => loop fuel (some condition) none body
  | fuel + 1, .forLoop .nothing condition increment body _ => loop fuel condition increment body
  | fuel + 1, .forLoop (.evaluate e) condition increment body _ => do
    let _ ← evaluate fuel e
    loop fuel condition increment body
  | fuel + 1, .forLoop (.declare decl) condition increment body _ => inNewFrame do
    declareVar fuel decl
    loop fuel condition increment body
  | _ + 1, .loopExit e _ => pure (.exit e)
  | _ + 1, .returns none _ => pure (.returned .nil)
  | fuel + 1, .returns (some e) _ => do
    let v ← evaluate fuel e
    pure (.returned v)

def declareVar : Nat → VarDecl → Watch Unit
  | 0, _ => fuelSpent
  | _ + 1, ⟨name, none, line⟩ => quiet (Machine.define name .nil line)
  | fuel + 1, ⟨name, some e, line⟩ => do
    let v ← evaluate fuel e
    quiet (Machine.define name v line)

def executeAll : Nat → List Stmt → Watch Signal
  | 0, _ => fuelSpent
  | _ + 1, [] => pure .normal
  | fuel + 1, s :: rest => do
    match ← execute fuel s with
    | .normal => executeAll fuel rest
    | signal => pure signal

def holds : Nat → Option Expr → Watch Bool
  | 0, _ => fuelSpent
  | _ + 1, none => pure true
  | fuel + 1, some e => do
    let v ← evaluate fuel e
    pure v.isTruthy

def loop : Nat → Option Expr → Option Expr → Stmt → Watch Signal
  | 0, _, _, _ => fuelSpent
  | fuel + 1, condition, increment, body => do
    if ← holds fuel condition then
      match ← execute fuel body with
      | .exit .toEnd => pure .normal
      | .returned v => pure (.returned v)
      | _ =>
        let _ ← step fuel increment
        loop fuel condition increment body
    else pure .normal

def step : Nat → Option Expr → Watch Unit
  | 0, _ => fuelSpent
  | _ + 1, none => pure ()
  | fuel + 1, some e => do
    let _ ← evaluate fuel e
    pure ()
end

def executeProgram (fuel : Nat) : List Stmt → Watch Unit
  | [] => pure ()
  | s :: rest => do
    match ← execute fuel s with
    | .normal => executeProgram fuel rest
    | signal =>
      let text ← inspect fun m => signal.description m.heap
      quiet (.fail s.line (.internal (.escapedTopLevel text)))

/-- The calls of a program that starts with no call active, and how the program ends. -/
def interpret (fuel : Nat) (program : List Stmt) (m : Machine) :
    List CallNote × Option (Option Diagnostic × Machine) :=
  match executeProgram fuel program 0 m with
  | (notes, .done () m) => (notes, some (none, m))
  | (notes, .failed d m) =>
    (notes, some (some d, { m with toWorld := m.fail, current := m.globals }))
  | (notes, .outOfFuel) => (notes, none)

def run (fuel : Nat) (source : String) (m : Machine) :
    List CallNote × Option (Option Failure × Machine) :=
  match compile source with
  | .error f => ([], some (some f, m))
  | .ok program =>
    let r := interpret fuel program m
    (r.1, r.2.map fun e => (e.1.map fun d => ⟨.runtime, [d]⟩, e.2))

end Watched
end Lox
