import Lox.Action
import Lox.Heap
import Lox.World

/-! The state of a running program and the actions on it. -/
namespace Lox

structure Machine extends World where
  heap : Heap
  globals : FrameId
  current : FrameId

namespace Machine

open Lox.Action

variable {α : Type}

/-- A machine with an empty heap but for the globals, which hold the functions of the language. -/
def start (limit : Option Nat) (sink : Sink) (clock : Nat → Float) : Machine :=
  let root := Heap.empty.frames.addRoot
  let frames := Native.all.foldl (fun fs n => fs.bind root.1 n.name (.native n)) root.2
  { World.start limit sink clock with
    heap := { Heap.empty with frames }
    globals := root.1
    current := root.1 }

/-- An operation on the heap with a result. -/
def allocate (f : Heap → α × Heap) : Action Machine α := fun m =>
  let r := f m.heap
  .done r.1 { m with heap := r.2 }

def setField (id : InstanceId) (name : String) (v : Value) : Action Machine Unit := fun m =>
  .done () { m with heap := m.heap.setField id name v }

/-- The value of an occurrence, seen from the current frame. -/
def read (o : Occurrence) (line : Nat) : Action Machine Value := fun m =>
  match m.heap.frames.read m.current o.depth o.name with
  | .ok v => .done v m
  | .error f => .failed ⟨line, f⟩ m

/-- Binds a name in one frame. -/
def bind (m : Machine) (f : FrameId) (name : String) (v : Value) : Machine :=
  { m with heap := m.heap.bind f name v }

def write (o : Occurrence) (v : Value) (line : Nat) : Action Machine Unit := fun m =>
  match m.heap.frames.holder m.current o.depth o.name with
  | .ok frame => .done () (m.bind frame o.name v)
  | .error f => .failed ⟨line, f⟩ m

/-- A property of an instance. A method is bound to it anew. -/
def property (id : InstanceId) (name : String) (line : Nat) : Action Machine Value := do
  match ← inspect (·.heap.property? id name) with
  | some (.field v) => pure v
  | some (.method method) =>
    let bound ← allocate (·.bindMethod method id)
    pure (.function bound)
  | none => failRuntime line (.undefinedProperty name)

/-- Declares a name in the current frame. -/
def define (name : String) (v : Value) (line : Nat) : Action Machine Unit := fun m =>
  if m.heap.frames.accepts m.current name then .done () (m.bind m.current name v)
  else .failed ⟨line, .runtime (.redeclared name)⟩ m

/-- Changes the value of a name of the current frame, if it has it. -/
def assignHere (name : String) (v : Value) : Action Machine Unit := fun m =>
  if (m.heap.frames.find? m.current name).isSome then .done () (m.bind m.current name v)
  else .done () m

/-- Binds parameters in `frame`; the first of two equal names keeps its value. -/
def defineAll (frame : FrameId) : List (String × Value) → Action Machine Unit
  | [] => pure ()
  | (name, v) :: rest => fun m =>
    defineAll frame rest (if m.heap.frames.accepts frame name then m.bind frame name v else m)

/-- Writes a line. -/
def print (text : String) : Action Machine Unit := fun m =>
  let r := m.toWorld.print text
  if r.1 then .done () { m with toWorld := r.2 }
  else .failed .sinkFull { m with toWorld := r.2 }

/-- The next value of the clock. -/
def tick : Action Machine Value := fun m =>
  let r := m.toWorld.tick
  .done r.1 { m with toWorld := r.2 }

/-- Runs `x` with `frame` current and makes the old frame current again, however `x` ends. -/
def inFrame (frame : FrameId) (x : Action Machine α) : Action Machine α := fun m =>
  match x { m with current := frame } with
  | .done a m' => .done a { m' with current := m.current }
  | .failed d m' => .failed d { m' with current := m.current }
  | .outOfFuel => .outOfFuel

/-- Runs `x` with `frame` around it as a new inner frame. -/
def inNewFrame (x : Action Machine α) : Action Machine α := do
  let outer ← inspect (·.current)
  let frame ← allocate (·.addFrame outer)
  inFrame frame x

/-- Runs `x` as one more active call. -/
def asCall (line : Nat) (x : Action Machine α) : Action Machine α := fun m =>
  if m.atLimit then .failed ⟨line, .runtime .callsTooDeep⟩ m
  else
    match x { m with toWorld := m.enterCall } with
    | .done a m' => .done a { m' with toWorld := m'.leaveCall }
    | .failed d m' => .failed d { m' with toWorld := m'.leaveCall }
    | .outOfFuel => .outOfFuel

end Machine
end Lox
