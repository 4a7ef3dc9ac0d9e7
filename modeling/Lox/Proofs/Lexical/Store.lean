import Lox.Action
import Lox.Heap
import Lox.World

/-! Lexical scoping by itself: names stand for cells, and there are neither frames nor depths. -/
namespace Lox.Lexical

abbrev Cell := Nat

/-- The local names at some place and their cells, latest first. At top level there are none. -/
inductive Env where
  | top
  | inside (cells : Bindings Cell)

namespace Env

def find? : Env → String → Option Cell
  | top, _ => none
  | inside cells, name => cells.find? name

/-- The names at the start of a scope inside. -/
def enter : Env → Env
  | top => inside []
  | inside cells => inside cells

/-- A name declared at top level is no local name. -/
def extend (env : Env) (name : String) (cell : Cell) : Env :=
  match env with
  | top => top
  | inside cells => inside ((name, cell) :: cells)

end Env

/-- A function is its declaration and the names that were visible where it was made. -/
structure Closure where
  decl : FunDecl Stmt
  env : Env

structure Store extends World where
  cells : Array Value
  globals : Bindings Value
  functions : Array Closure
  classes : Array ClassObject
  instances : Array Instance

namespace Store

def start (limit : Option Nat) (sink : Sink) (clock : Nat → Float) : Store :=
  { World.start limit sink clock with
    cells := #[]
    globals := Native.all.map fun n => (n.name, .native n)
    functions := #[]
    classes := #[]
    instances := #[] }

/-- The store as a heap, for all that takes no notice of names. -/
def objects (s : Store) : Heap :=
  ⟨.empty, s.functions.map fun c => ⟨c.decl, 0⟩, s.classes, s.instances⟩

/-- Places that were never given out hold an empty function. -/
def function (s : Store) (id : FunctionId) : Closure :=
  s.functions[id]?.getD ⟨⟨"", [], [], 0, 0⟩, .top⟩

def addCell (s : Store) (v : Value) : Cell × Store :=
  (s.cells.size, { s with cells := s.cells.push v })

def addFunction (s : Store) (c : Closure) : FunctionId × Store :=
  (s.functions.size, { s with functions := s.functions.push c })

def addClass (s : Store) (c : ClassObject) : ClassId × Store :=
  (s.classes.size, { s with classes := s.classes.push c })

def addInstance (s : Store) (c : ClassId) : InstanceId × Store :=
  (s.instances.size, { s with instances := s.instances.push ⟨c, []⟩ })

/-- Functions for the methods of a class. Of two methods of one name the later one stays. -/
def addMethods (s : Store) (env : Env) :
    List (FunDecl Stmt) → Bindings FunctionId → Bindings FunctionId × Store
  | [], methods => (methods, s)
  | decl :: rest, methods =>
    let r := s.addFunction ⟨decl, env⟩
    addMethods r.2 env rest (methods.insert decl.name r.1)

/-- The function made of a method and a receiver, whose body sees the receiver as `this`. -/
def bindMethod (s : Store) (method : FunctionId) (receiver : InstanceId) : FunctionId × Store :=
  let c := s.function method
  let r := s.addCell (.object receiver)
  r.2.addFunction ⟨c.decl, c.env.enter.extend "this" r.1⟩

end Store

open Lox.Action

def allocate {α : Type} (f : Store → α × Store) : Action Store α := fun s =>
  let r := f s
  .done r.1 r.2

/-- The value of a name: that of its cell, or of the global name if it is not local. -/
def read (env : Env) (name : String) (line : Nat) : Action Store Value := fun s =>
  match env.find? name with
  | some cell => .done (s.cells[cell]?.getD .nil) s
  | none =>
    match s.globals.find? name with
    | some v => .done v s
    | none => .failed ⟨line, .runtime (.undefinedVariable name)⟩ s

def write (env : Env) (name : String) (v : Value) (line : Nat) : Action Store Unit := fun s =>
  match env.find? name with
  | some cell => .done () { s with cells := s.cells.modify cell fun _ => v }
  | none =>
    if s.globals.has name then .done () { s with globals := s.globals.insert name v }
    else .failed ⟨line, .runtime (.undefinedVariable name)⟩ s

/-- Declares a name: a local one gets a cell of its own. -/
def declare (env : Env) (name : String) (v : Value) : Action Store Env := fun s =>
  match env with
  | .top => .done .top { s with globals := s.globals.insert name v }
  | .inside _ =>
    let r := s.addCell v
    .done (env.extend name r.1) r.2

def declareAll (env : Env) : List (String × Value) → Action Store Env
  | [] => pure env
  | (name, v) :: rest => do
    let env ← declare env name v
    declareAll env rest

/-- Declares the name of a function, which is visible in the function itself. -/
def declareFunction (env : Env) (decl : FunDecl Stmt) : Action Store Env := fun s =>
  let r := s.addFunction ⟨decl, env.extend decl.name s.cells.size⟩
  declare env decl.name (.function r.1) r.2

/-- Gives a name another value, if it is declared. -/
def assignHere (env : Env) (name : String) (v : Value) : Action Store Unit := fun s =>
  match env.find? name with
  | some cell => .done () { s with cells := s.cells.modify cell fun _ => v }
  | none =>
    if s.globals.has name then .done () { s with globals := s.globals.insert name v }
    else .done () s

def setField (id : InstanceId) (name : String) (v : Value) : Action Store Unit := fun s =>
  .done () { s with
    instances := s.instances.modify id fun i => { i with fields := i.fields.insert name v } }

/-- A property of an instance. A method is bound to it anew. -/
def property (id : InstanceId) (name : String) (line : Nat) : Action Store Value := do
  match ← inspect (·.objects.property? id name) with
  | some (.field v) => pure v
  | some (.method method) =>
    let bound ← allocate (·.bindMethod method id)
    pure (.function bound)
  | none => failRuntime line (.undefinedProperty name)

def print (text : String) : Action Store Unit := fun s =>
  let r := s.toWorld.print text
  if r.1 then .done () { s with toWorld := r.2 }
  else .failed .sinkFull { s with toWorld := r.2 }

def tick : Action Store Value := fun s =>
  let r := s.toWorld.tick
  .done r.1 { s with toWorld := r.2 }

/-- Runs `x` as one more active call. -/
def asCall {α : Type} (line : Nat) (x : Action Store α) : Action Store α := fun s =>
  if s.atLimit then .failed ⟨line, .runtime .callsTooDeep⟩ s
  else
    match x { s with toWorld := s.enterCall } with
    | .done a s' => .done a { s' with toWorld := s'.leaveCall }
    | .failed d s' => .failed d { s' with toWorld := s'.leaveCall }
    | .outOfFuel => .outOfFuel

end Lox.Lexical
