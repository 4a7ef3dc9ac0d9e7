import Lox.Program
import Lox.Proofs.Steps.Step

/-! Evaluation inside any monad that has the steps of a machine: it can be watched as closely as one
likes, and what holds of the steps and of their compositions holds of every evaluation. -/
namespace Lox

/-- What evaluation needs of the monad it runs in. -/
structure Instrument (M : Type → Type) where
  fuelSpent {α : Type} : M α
  step {α : Type} (x : Action Machine α) (h : Step x) : M α
  inFrame {α : Type} (frame : FrameId) (x : M α) : M α
  asCall {α : Type} (line : Nat) (x : M α) : M α

namespace Instrument

section
variable {M : Type → Type} [Monad M] (p : Instrument M) {α : Type}

def failRuntime (line : Nat) (f : RuntimeFault) : M α :=
  p.step (Action.failRuntime line f) (.fail line _)

def look (f : Heap → FrameId → α) : M α := p.step _ (.look f)

def define (name : String) (v : Value) (line : Nat) : M Unit := p.step _ (.define name v line)

/-- Runs `x` with a new frame around it. -/
def inNewFrame (x : M α) : M α := do
  let outer ← p.look fun _ current => current
  let frame ← p.step _ (.addFrame outer)
  p.inFrame frame x
end

mutual
def evaluate {M : Type → Type} [Monad M] (p : Instrument M) : Nat → Expr → M Value
  | 0, _ => p.fuelSpent
  | _ + 1, .literal value _ => pure value.value
  | fuel + 1, .group inner _ => p.evaluate fuel inner
  | fuel + 1, .unary op right line => do
    let v ← p.evaluate fuel right
    p.step _ (.lift line (op.apply v))
  | fuel + 1, .binary left op right line => do
    let v ← p.evaluate fuel left
    match op.settled? v with
    | some settled => pure settled
    | none =>
      let w ← p.evaluate fuel right
      p.step _ (.finish op v w line)
  | _ + 1, .read o line => p.step _ (.read o line)
  | _ + 1, .this o line => p.step _ (.read o line)
  | fuel + 1, .assign target value line => do
    let v ← p.evaluate fuel value
    p.step _ (.write target v line)
    pure v
  | fuel + 1, .get object name line => do
    match ← p.evaluate fuel object with
    | .object id => p.step _ (.property id name line)
    | _ => p.failRuntime line .noProperties
  | fuel + 1, .set object name value line => do
    match ← p.evaluate fuel object with
    | .object id =>
      let v ← p.evaluate fuel value
      p.step _ (.setField id name v)
      pure v
    | _ => p.failRuntime line .noFields
  | fuel + 1, .call callee arguments line => do
    let f ← p.evaluate fuel callee
    match f.callable? with
    | none => p.failRuntime line .notCallable
    | some c =>
      let arity ← p.look fun h _ => c.arity h
      if arguments.length ≠ arity then p.failRuntime line (.wrongArity arity arguments.length)
      else
        let vs ← p.evaluateAll fuel arguments
        p.call fuel c vs line

def evaluateAll {M : Type → Type} [Monad M] (p : Instrument M) : Nat → List Expr → M (List Value)
  | 0, _ => p.fuelSpent
  | _ + 1, [] => pure []
  | fuel + 1, e :: rest => do
    let v ← p.evaluate fuel e
    let vs ← p.evaluateAll fuel rest
    pure (v :: vs)

def call {M : Type → Type} [Monad M] (p : Instrument M) :
    Nat → Callable → List Value → Nat → M Value
  | 0, _, _, _ => p.fuelSpent
  | _ + 1, .native .clock, _, line => p.asCall line (p.step _ .tick)
  | fuel + 1, .function id, vs, line => p.asCall line do
    let f ← p.look fun h _ => h.function id
    p.callFunction fuel f vs line
  | fuel + 1, .classObject id, vs, line => p.asCall line do
    let receiver ← p.step _ (.addInstance id)
    match ← p.look fun h _ => h.initializer? id with
    | none => pure (.object receiver)
    | some method =>
      let bound ← p.step _ (.bindMethod method receiver)
      let f ← p.look fun h _ => h.function bound
      let _ ← p.callFunction fuel f vs line
      pure (.object receiver)

def callFunction {M : Type → Type} [Monad M] (p : Instrument M) :
    Nat → Function → List Value → Nat → M Value
  | 0, _, _, _ => p.fuelSpent
  | fuel + 1, f, vs, line => do
    let frame ← p.step _ (.addFrame f.closure)
    p.step _ (.defineAll frame (f.decl.params.zip vs))
    match ← p.inFrame frame (p.executeAll fuel f.decl.body) with
    | .normal => pure .nil
    | .returned v => pure v
    | .exit e =>
      let signal ← p.look fun h _ => (Signal.exit e).description h
      p.step _ (.fail line (.internal (.escapedFunction signal f.decl.name)))

def execute {M : Type → Type} [Monad M] (p : Instrument M) : Nat → Stmt → M Signal
  | 0, _ => p.fuelSpent
  | fuel + 1, .expression e _ => do
    let _ ← p.evaluate fuel e
    pure .normal
  | fuel + 1, .print e _ => do
    let v ← p.evaluate fuel e
    let text ← p.look fun h _ => v.text h
    p.step _ (.print text)
    pure .normal
  | fuel + 1, .var decl => do
    p.declareVar fuel decl
    pure .normal
  | _ + 1, .function decl => do
    let frame ← p.look fun _ current => current
    let id ← p.step _ (.addFunction ⟨decl, frame⟩)
    p.define decl.name (.function id) decl.line
    pure .normal
  | _ + 1, .classDecl name methods line => do
    p.define name .nil line
    let frame ← p.look fun _ current => current
    let table ← p.step _ (.addMethods frame methods [])
    let id ← p.step _ (.addClass ⟨name, table⟩)
    p.step _ (.assignHere name (.classObject id))
    pure .normal
  | fuel + 1, .block statements _ => p.inNewFrame (p.executeAll fuel statements)
  | fuel + 1, .ifThen condition thenBranch _ => do
    let v ← p.evaluate fuel condition
    if v.isTruthy then p.execute fuel thenBranch else pure .normal
  | fuel + 1, .ifElse condition thenBranch elseBranch _ => do
    let v ← p.evaluate fuel condition
    if v.isTruthy then p.execute fuel thenBranch else p.execute fuel elseBranch
  | fuel + 1, .whileLoop condition body _ => p.loop fuel (some condition) none body
  | fuel + 1, .forLoop .nothing condition increment body _ =>
    p.loop fuel condition increment body
  | fuel + 1, .forLoop (.evaluate e) condition increment body _ => do
    let _ ← p.evaluate fuel e
    p.loop fuel condition increment body
  | fuel + 1, .forLoop (.declare decl) condition increment body _ => p.inNewFrame do
    p.declareVar fuel decl
    p.loop fuel condition increment body
  | _ + 1, .loopExit e _ => pure (.exit e)
  | _ + 1, .returns none _ => pure (.returned .nil)
  | fuel + 1, .returns (some e) _ => do
    let v ← p.evaluate fuel e
    pure (.returned v)

def declareVar {M : Type → Type} [Monad M] (p : Instrument M) : Nat → VarDecl → M Unit
  | 0, _ => p.fuelSpent
  | _ + 1, ⟨name, none, line⟩ => p.define name .nil line
  | fuel + 1, ⟨name, some e, line⟩ => do
    let v ← p.evaluate fuel e
    p.define name v line

def executeAll {M : Type → Type} [Monad M] (p : Instrument M) : Nat → List Stmt → M Signal
  | 0, _ => p.fuelSpent
  | _ + 1, [] => pure .normal
  | fuel + 1, s :: rest => do
    match ← p.execute fuel s with
    | .normal => p.executeAll fuel rest
    | signal => pure signal

def holds {M : Type → Type} [Monad M] (p : Instrument M) : Nat → Option Expr → M Bool
  | 0, _ => p.fuelSpent
  | _ + 1, none => pure true
  | fuel + 1, some e => do
    let v ← p.evaluate fuel e
    pure v.isTruthy

def loop {M : Type → Type} [Monad M] (p : Instrument M) :
    Nat → Option Expr → Option Expr → Stmt → M Signal
  | 0, _, _, _ => p.fuelSpent
  | fuel + 1, condition, increment, body => do
    if ← p.holds fuel condition then
      match ← p.execute fuel body with
      | .exit .toEnd => pure .normal
      | .returned v => pure (.returned v)
      | _ =>
        let _ ← p.turn fuel increment
        p.loop fuel condition increment body
    else pure .normal

/-- The increment of a loop. -/
def turn {M : Type → Type} [Monad M] (p : Instrument M) : Nat → Option Expr → M Unit
  | 0, _ => p.fuelSpent
  | _ + 1, none => pure ()
  | fuel + 1, some e => do
    let _ ← p.evaluate fuel e
    pure ()
end

/-- Executes top-level statements in order. -/
def executeProgram {M : Type → Type} [Monad M] (p : Instrument M) (fuel : Nat) :
    List Stmt → M Unit
  | [] => pure ()
  | s :: rest => do
    match ← p.execute fuel s with
    | .normal => p.executeProgram fuel rest
    | signal =>
      let text ← p.look fun h _ => signal.description h
      p.step _ (.fail s.line (.internal (.escapedTopLevel text)))

variable {M : Type → Type} [Monad M]

/-- A relation between the instrumented and the plain actions that is closed under the ways in which
evaluation puts them together. -/
structure Matches (p : Instrument M) (R : ⦃α : Type⦄ → M α → Action Machine α → Prop) : Prop where
  fuelSpent {α : Type} : R (p.fuelSpent : M α) Action.fuelSpent
  pure {α : Type} (a : α) : R (Pure.pure a) (Pure.pure a)
  step {α : Type} {x : Action Machine α} (h : Step x) : R (p.step x h) x
  bind {α β : Type} {x : M α} {y : Action Machine α} {f : α → M β} {g : α → Action Machine β} :
    R x y → (∀ a, R (f a) (g a)) → R (x >>= f) (y >>= g)
  inFrame {α : Type} (frame : FrameId) {x : M α} {y : Action Machine α} :
    R x y → R (p.inFrame frame x) (Machine.inFrame frame y)
  asCall {α : Type} (line : Nat) {x : M α} {y : Action Machine α} :
    R x y → R (p.asCall line x) (Machine.asCall line y)

/-- The same, but a class declaration is taken as a whole, and of the single steps only those are
asked for that evaluation makes elsewhere. -/
structure Composes (p : Instrument M) (R : ⦃α : Type⦄ → M α → Action Machine α → Prop) : Prop where
  fuelSpent {α : Type} : R (p.fuelSpent : M α) Action.fuelSpent
  pure {α : Type} (a : α) : R (Pure.pure a) (Pure.pure a)
  fail {α : Type} (line : Nat) (f : Fault) :
    R (p.step (Action.fail line f : Action Machine α) (.fail line f)) (Action.fail line f)
  lift (line : Nat) (r : Except RuntimeFault Value) :
    R (p.step _ (.lift line r)) (Action.lift line r)
  finish (op : BinaryOp) (v w : Value) (line : Nat) :
    R (p.step _ (.finish op v w line)) (op.finish v w line)
  look {α : Type} (f : Heap → FrameId → α) :
    R (p.look f) (Action.inspect fun m => f m.heap m.current)
  read (o : Occurrence) (line : Nat) : R (p.step _ (.read o line)) (Machine.read o line)
  write (o : Occurrence) (v : Value) (line : Nat) :
    R (p.step _ (.write o v line)) (Machine.write o v line)
  property (id : InstanceId) (name : String) (line : Nat) :
    R (p.step _ (.property id name line)) (Machine.property id name line)
  setField (id : InstanceId) (name : String) (v : Value) :
    R (p.step _ (.setField id name v)) (Machine.setField id name v)
  define (name : String) (v : Value) (line : Nat) :
    R (p.define name v line) (Machine.define name v line)
  defineAll (frame : FrameId) (entries : List (String × Value)) :
    R (p.step _ (.defineAll frame entries)) (Machine.defineAll frame entries)
  addFrame (outer : FrameId) :
    R (p.step _ (.addFrame outer)) (Machine.allocate (·.addFrame outer))
  addFunction (f : Function) :
    R (p.step _ (.addFunction f)) (Machine.allocate (·.addFunction f))
  addInstance (id : ClassId) :
    R (p.step _ (.addInstance id)) (Machine.allocate (·.addInstance id))
  bindMethod (method : FunctionId) (receiver : InstanceId) :
    R (p.step _ (.bindMethod method receiver)) (Machine.allocate (·.bindMethod method receiver))
  print (text : String) : R (p.step _ (.print text)) (Machine.print text)
  tick : R (p.step _ .tick) Machine.tick
  classDecl (fuel : Nat) (name : String) (methods : List (FunDecl Stmt)) (line : Nat) :
    R (p.execute (fuel + 1) (.classDecl name methods line))
      (Lox.execute (fuel + 1) (.classDecl name methods line))
  bind {α β : Type} {x : M α} {y : Action Machine α} {f : α → M β} {g : α → Action Machine β} :
    R x y → (∀ a, R (f a) (g a)) → R (x >>= f) (y >>= g)
  inFrame {α : Type} (frame : FrameId) {x : M α} {y : Action Machine α} :
    R x y → R (p.inFrame frame x) (Machine.inFrame frame y)
  asCall {α : Type} (line : Nat) {x : M α} {y : Action Machine α} :
    R x y → R (p.asCall line x) (Machine.asCall line y)

/-- The instrumented evaluations at one amount of fuel match the plain ones. -/
structure EvaluationsMatch (p : Instrument M) (R : ⦃α : Type⦄ → M α → Action Machine α → Prop)
    (fuel : Nat) : Prop where
  evaluate (e : Expr) : R (p.evaluate fuel e) (Lox.evaluate fuel e)
  evaluateAll (es : List Expr) : R (p.evaluateAll fuel es) (Lox.evaluateAll fuel es)
  call (c : Callable) (vs : List Value) (line : Nat) :
    R (p.call fuel c vs line) (Lox.call fuel c vs line)
  callFunction (f : Function) (vs : List Value) (line : Nat) :
    R (p.callFunction fuel f vs line) (Lox.callFunction fuel f vs line)
  execute (s : Stmt) : R (p.execute fuel s) (Lox.execute fuel s)
  declareVar (decl : VarDecl) : R (p.declareVar fuel decl) (Lox.declareVar fuel decl)
  executeAll (statements : List Stmt) :
    R (p.executeAll fuel statements) (Lox.executeAll fuel statements)
  holds (condition : Option Expr) : R (p.holds fuel condition) (Lox.holds fuel condition)
  loop (condition increment : Option Expr) (body : Stmt) :
    R (p.loop fuel condition increment body) (Lox.loop fuel condition increment body)
  turn (increment : Option Expr) : R (p.turn fuel increment) (Lox.step fuel increment)

namespace Composes

variable {p : Instrument M} {R : ⦃α : Type⦄ → M α → Action Machine α → Prop} {fuel : Nat}

theorem inNewFrame {α : Type} (h : p.Composes R) {x : M α} {y : Action Machine α} (hx : R x y) :
    R (p.inNewFrame x) (Machine.inNewFrame y) :=
  h.bind (h.look _) fun _ => h.bind (h.addFrame _) fun frame => h.inFrame frame hx

theorem evaluate_succ (h : p.Composes R) (ih : EvaluationsMatch p R fuel) (e : Expr) :
    R (p.evaluate (fuel + 1) e) (Lox.evaluate (fuel + 1) e) := by
  cases e with
  | literal value line => exact h.pure _
  | group inner line => exact ih.evaluate inner
  | unary op right line => exact h.bind (ih.evaluate right) fun v => h.lift _ _
  | binary left op right line =>
    refine h.bind (ih.evaluate left) fun v => ?_
    cases op.settled? v with
    | some settled => exact h.pure settled
    | none => exact h.bind (ih.evaluate right) fun w => h.finish _ _ _ _
  | read o line => exact h.read _ _
  | this o line => exact h.read _ _
  | assign target value line =>
    exact h.bind (ih.evaluate value) fun v => h.bind (h.write _ _ _) fun _ => h.pure v
  | get object name line =>
    refine h.bind (ih.evaluate object) fun v => ?_
    cases v with
    | object id => exact h.property _ _ _
    | _ => exact h.fail _ _
  | set object name value line =>
    refine h.bind (ih.evaluate object) fun v => ?_
    cases v with
    | object id =>
      exact h.bind (ih.evaluate value) fun v => h.bind (h.setField _ _ _) fun _ => h.pure v
    | _ => exact h.fail _ _
  | call callee arguments line =>
    refine h.bind (ih.evaluate callee) fun v => ?_
    cases v.callable? with
    | none => exact h.fail _ _
    | some c =>
      refine h.bind (h.look _) fun arity => ?_
      by_cases hn : arguments.length ≠ arity
      · simp only [if_pos hn]
        exact h.fail _ _
      · simp only [if_neg hn]
        exact h.bind (ih.evaluateAll arguments) fun vs => ih.call c vs line

theorem evaluateAll_succ (h : p.Composes R) (ih : EvaluationsMatch p R fuel) (es : List Expr) :
    R (p.evaluateAll (fuel + 1) es) (Lox.evaluateAll (fuel + 1) es) := by
  cases es with
  | nil => exact h.pure []
  | cons e rest =>
    exact h.bind (ih.evaluate e) fun v => h.bind (ih.evaluateAll rest) fun vs => h.pure _

theorem call_succ (h : p.Composes R) (ih : EvaluationsMatch p R fuel) (c : Callable)
    (vs : List Value) (line : Nat) :
    R (p.call (fuel + 1) c vs line) (Lox.call (fuel + 1) c vs line) := by
  cases c with
  | native n =>
    cases n
    exact h.asCall line h.tick
  | function id => exact h.asCall line (h.bind (h.look _) fun f => ih.callFunction f vs line)
  | classObject id =>
    refine h.asCall line (h.bind (h.addInstance _) fun receiver => h.bind (h.look _) fun method? => ?_)
    cases method? with
    | none => exact h.pure _
    | some method =>
      exact h.bind (h.bindMethod _ _) fun bound => h.bind (h.look _) fun f =>
        h.bind (ih.callFunction f vs line) fun _ => h.pure _

theorem callFunction_succ (h : p.Composes R) (ih : EvaluationsMatch p R fuel) (f : Function)
    (vs : List Value) (line : Nat) :
    R (p.callFunction (fuel + 1) f vs line) (Lox.callFunction (fuel + 1) f vs line) := by
  refine h.bind (h.addFrame _) fun frame => h.bind (h.defineAll _ _) fun _ =>
    h.bind (h.inFrame frame (ih.executeAll f.decl.body)) fun signal => ?_
  cases signal with
  | normal => exact h.pure _
  | returned v => exact h.pure v
  | exit e => exact h.bind (h.look _) fun text => h.fail _ _

theorem execute_succ (h : p.Composes R) (ih : EvaluationsMatch p R fuel) (s : Stmt) :
    R (p.execute (fuel + 1) s) (Lox.execute (fuel + 1) s) := by
  cases s with
  | expression e line => exact h.bind (ih.evaluate e) fun _ => h.pure _
  | print e line =>
    exact h.bind (ih.evaluate e) fun v => h.bind (h.look _) fun text =>
      h.bind (h.print _) fun _ => h.pure _
  | var decl => exact h.bind (ih.declareVar decl) fun _ => h.pure _
  | function decl =>
    exact h.bind (h.look _) fun frame => h.bind (h.addFunction _) fun id =>
      h.bind (h.define _ _ _) fun _ => h.pure _
  | classDecl name methods line => exact h.classDecl fuel name methods line
  | block statements line => exact h.inNewFrame (ih.executeAll statements)
  | ifThen condition thenBranch line =>
    refine h.bind (ih.evaluate condition) fun v => ?_
    cases v.isTruthy with
    | true => exact ih.execute thenBranch
    | false => exact h.pure _
  | ifElse condition thenBranch elseBranch line =>
    refine h.bind (ih.evaluate condition) fun v => ?_
    cases v.isTruthy with
    | true => exact ih.execute thenBranch
    | false => exact ih.execute elseBranch
  | whileLoop condition body line => exact ih.loop (some condition) none body
  | forLoop init condition increment body line =>
    have hloop := ih.loop condition increment body
    cases init with
    | nothing => exact hloop
    | declare decl => exact h.inNewFrame (h.bind (ih.declareVar decl) fun _ => hloop)
    | evaluate e => exact h.bind (ih.evaluate e) fun _ => hloop
  | loopExit exit line => exact h.pure _
  | returns value line =>
    cases value with
    | none => exact h.pure _
    | some e => exact h.bind (ih.evaluate e) fun v => h.pure _

theorem declareVar_succ (h : p.Composes R) (ih : EvaluationsMatch p R fuel) (decl : VarDecl) :
    R (p.declareVar (fuel + 1) decl) (Lox.declareVar (fuel + 1) decl) := by
  rcases decl with ⟨name, init, line⟩
  cases init with
  | none => exact h.define _ _ _
  | some e => exact h.bind (ih.evaluate e) fun v => h.define _ _ _

theorem executeAll_succ (h : p.Composes R) (ih : EvaluationsMatch p R fuel)
    (statements : List Stmt) :
    R (p.executeAll (fuel + 1) statements) (Lox.executeAll (fuel + 1) statements) := by
  cases statements with
  | nil => exact h.pure _
  | cons s rest =>
    refine h.bind (ih.execute s) fun signal => ?_
    cases signal with
    | normal => exact ih.executeAll rest
    | exit e => exact h.pure _
    | returned v => exact h.pure _

theorem holds_succ (h : p.Composes R) (ih : EvaluationsMatch p R fuel) (condition : Option Expr) :
    R (p.holds (fuel + 1) condition) (Lox.holds (fuel + 1) condition) := by
  cases condition with
  | none => exact h.pure true
  | some e => exact h.bind (ih.evaluate e) fun v => h.pure v.isTruthy

theorem loop_succ (h : p.Composes R) (ih : EvaluationsMatch p R fuel)
    (condition increment : Option Expr) (body : Stmt) :
    R (p.loop (fuel + 1) condition increment body)
      (Lox.loop (fuel + 1) condition increment body) := by
  have hround := h.bind (ih.turn increment) fun _ => ih.loop condition increment body
  refine h.bind (ih.holds condition) fun b => ?_
  cases b with
  | false => exact h.pure _
  | true =>
    refine h.bind (ih.execute body) fun signal => ?_
    cases signal with
    | normal => exact hround
    | returned v => exact h.pure _
    | exit e =>
      cases e with
      | toEnd => exact h.pure _
      | toNext => exact hround

theorem turn_succ (h : p.Composes R) (ih : EvaluationsMatch p R fuel) (increment : Option Expr) :
    R (p.turn (fuel + 1) increment) (Lox.step (fuel + 1) increment) := by
  cases increment with
  | none => exact h.pure ()
  | some e => exact h.bind (ih.evaluate e) fun _ => h.pure ()

theorem evaluations (h : p.Composes R) (fuel : Nat) : EvaluationsMatch p R fuel := by
  induction fuel with
  | zero =>
    constructor <;> intros <;> exact h.fuelSpent
  | succ fuel ih =>
    exact {
      evaluate := h.evaluate_succ ih
      evaluateAll := h.evaluateAll_succ ih
      call := h.call_succ ih
      callFunction := h.callFunction_succ ih
      execute := h.execute_succ ih
      declareVar := h.declareVar_succ ih
      executeAll := h.executeAll_succ ih
      holds := h.holds_succ ih
      loop := h.loop_succ ih
      turn := h.turn_succ ih }

theorem executeProgram (h : p.Composes R) (fuel : Nat) (program : List Stmt) :
    R (p.executeProgram fuel program) (Machine.executeProgram fuel program) := by
  induction program with
  | nil => exact h.pure ()
  | cons s rest ih =>
    refine h.bind ((h.evaluations fuel).execute s) fun signal => ?_
    cases signal with
    | normal => exact ih
    | exit e => exact h.bind (h.look _) fun text => h.fail _ _
    | returned v => exact h.bind (h.look _) fun text => h.fail _ _

end Composes

namespace Matches

variable {p : Instrument M} {R : ⦃α : Type⦄ → M α → Action Machine α → Prop}

theorem composes (h : p.Matches R) : p.Composes R where
  fuelSpent := h.fuelSpent
  pure := h.pure
  fail _ _ := h.step _
  lift _ _ := h.step _
  finish _ _ _ _ := h.step _
  look _ := h.step _
  read _ _ := h.step _
  write _ _ _ := h.step _
  property _ _ _ := h.step _
  setField _ _ _ := h.step _
  define _ _ _ := h.step _
  defineAll _ _ := h.step _
  addFrame _ := h.step _
  addFunction _ := h.step _
  addInstance _ := h.step _
  bindMethod _ _ := h.step _
  print _ := h.step _
  tick := h.step _
  classDecl _ _ _ _ :=
    h.bind (h.step _) fun _ => h.bind (h.step _) fun _ => h.bind (h.step _) fun _ =>
      h.bind (h.step _) fun _ => h.bind (h.step _) fun _ => h.pure _
  bind := h.bind
  inFrame := h.inFrame
  asCall := h.asCall

theorem evaluations (h : p.Matches R) (fuel : Nat) : EvaluationsMatch p R fuel :=
  h.composes.evaluations fuel

end Matches

/-- The machine by itself. -/
def plain : Instrument (Action Machine) where
  fuelSpent := Action.fuelSpent
  step x _ := x
  inFrame := Machine.inFrame
  asCall := Machine.asCall

end Instrument

/-- A property of actions that passes from the steps of an evaluation to all of it. -/
structure Action.Inherited (P : ⦃α : Type⦄ → Action Machine α → Prop) : Prop where
  fuelSpent {α : Type} : P (Action.fuelSpent : Action Machine α)
  onHeap ⦃α : Type⦄ ⦃x : Action Machine α⦄ : x.OnHeap → P x
  print (text : String) : P (Machine.print text)
  tick : P Machine.tick
  bind {α β : Type} {x : Action Machine α} {f : α → Action Machine β} :
    P x → (∀ a, P (f a)) → P (x >>= f)
  inFrame {α : Type} (frame : FrameId) {x : Action Machine α} : P x → P (Machine.inFrame frame x)
  asCall {α : Type} (line : Nat) {x : Action Machine α} : P x → P (Machine.asCall line x)

namespace Action.Inherited

variable {P : ⦃α : Type⦄ → Action Machine α → Prop} (h : Inherited P)
include h

theorem matches_plain : Instrument.plain.Matches fun _ _ x => P x where
  fuelSpent := h.fuelSpent
  pure a := h.onHeap (.pure a)
  step := Step.elim h.onHeap h.print h.tick
  bind := h.bind
  inFrame frame _ _ hx := h.inFrame frame hx
  asCall line _ _ hx := h.asCall line hx

theorem evaluate (fuel : Nat) (e : Expr) : P (Lox.evaluate fuel e) :=
  (h.matches_plain.evaluations fuel).evaluate e

theorem execute (fuel : Nat) (s : Stmt) : P (Lox.execute fuel s) :=
  (h.matches_plain.evaluations fuel).execute s

theorem executeProgram (fuel : Nat) (program : List Stmt) :
    P (Machine.executeProgram fuel program) :=
  h.matches_plain.composes.executeProgram fuel program

end Action.Inherited

/-! Relations between the machine that an action starts on and wherever the action ends. -/

/-- Each step, and running in another frame or as a call, gets from a machine to a related one. -/
structure Machine.Passage (R : Machine → Machine → Prop) : Prop where
  trans {m m' m'' : Machine} : R m m' → R m' m'' → R m m''
  onHeap (m : Machine) (h : Heap) : R m { m with heap := h }
  print (m : Machine) (text : String) : R m { m with sink := (m.sink.write text).2 }
  tick (m : Machine) : R m { m with ticks := m.ticks + 1 }
  inFrame {m m' : Machine} (frame : FrameId) :
    R { m with current := frame } m' → R m { m' with current := m.current }
  asCall {m m' : Machine} :
    R { m with toWorld := m.enterCall } m' → R m { m' with toWorld := m'.leaveCall }

/-- Wherever the action ends, the machine is related to the one at the start. -/
def Action.Leads {α : Type} (R : Machine → Machine → Prop) (x : Action Machine α) : Prop :=
  ∀ m, ∀ m' ∈ (x m).state?, R m m'

namespace Machine.Passage

variable {R : Machine → Machine → Prop} {α β : Type} (h : Passage R)
include h

theorem leads_onHeap {x : Action Machine α} (hx : x.OnHeap) : x.Leads R := by
  intro m m' hm'
  obtain ⟨r, h', hr⟩ := hx m.heap m.current
  rw [hr m rfl rfl] at hm'
  cases r with
  | ok a =>
    cases hm'
    exact h.onHeap m h'
  | error d =>
    cases hm'
    exact h.onHeap m h'

theorem leads_print (text : String) : (Machine.print text).Leads R := by
  intro m m' hm'
  rw [Machine.print] at hm'
  split at hm' <;> cases hm' <;> exact h.print m _

theorem leads_tick : Machine.tick.Leads R := by
  rintro m m' ⟨⟩
  exact h.tick m

theorem leads_bind {x : Action Machine α} {f : α → Action Machine β} (hx : x.Leads R)
    (hf : ∀ a, (f a).Leads R) : (x >>= f).Leads R := by
  intro m m' hm'
  have hfirst := hx m
  rw [Action.bind_apply] at hm'
  generalize x m = r at hfirst hm'
  cases r with
  | done a mid => exact h.trans (hfirst mid rfl) (hf a mid m' hm')
  | failed d mid =>
    cases hm'
    exact hfirst m' rfl
  | outOfFuel => cases hm'

theorem leads_inFrame (frame : FrameId) {x : Action Machine α} (hx : x.Leads R) :
    (Machine.inFrame frame x).Leads R := by
  intro m m' hm'
  rw [Machine.inFrame_apply, Answer.mem_state?_onState] at hm'
  obtain ⟨inner, hinner, rfl⟩ := hm'
  exact h.inFrame frame (hx _ inner hinner)

theorem leads_asCall (line : Nat) {x : Action Machine α} (hx : x.Leads R) :
    (Machine.asCall line x).Leads R := by
  intro m m' hm'
  rw [Machine.asCall_apply] at hm'
  split at hm'
  · cases hm'
    exact h.onHeap m m.heap
  · rw [Answer.mem_state?_onState] at hm'
    obtain ⟨inner, hinner, rfl⟩ := hm'
    exact h.asCall (hx _ inner hinner)

theorem inherited : Action.Inherited fun _ x => x.Leads R where
  fuelSpent _ _ hm' := by cases hm'
  onHeap _ _ := h.leads_onHeap
  print := h.leads_print
  tick := h.leads_tick
  bind := h.leads_bind
  inFrame := h.leads_inFrame
  asCall := h.leads_asCall

end Machine.Passage
end Lox
