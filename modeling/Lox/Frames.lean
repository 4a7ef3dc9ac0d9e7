import Lox.Bindings
import Lox.Fault
import Lox.Value

/-! Frames: the scopes of a running program, linked to the frames around them. -/
namespace Lox

/-- The names bound in one scope. A frame other than a root knows the frame around it and, to
reach globals at once, the root of its chain. -/
structure Frame where
  values : Bindings Value
  enclosing : Option FrameId
  root : Option FrameId

structure Frames where
  cells : Array Frame

namespace Frames

def empty : Frames := ⟨#[]⟩

def get? (fs : Frames) (f : FrameId) : Option Frame := fs.cells[f]?

/-- The number of frames, which is the name of the next one. -/
def size (fs : Frames) : Nat := fs.cells.size

private def push (fs : Frames) (frame : Frame) : FrameId × Frames :=
  (fs.cells.size, ⟨fs.cells.push frame⟩)

/-- A new frame at the root of a chain. -/
def addRoot (fs : Frames) : FrameId × Frames := fs.push ⟨[], none, none⟩

/-- The root of the chain of a frame, as the frame remembers it. -/
def rootOf (fs : Frames) (f : FrameId) : FrameId :=
  match fs.get? f with
  | some ⟨_, _, some root⟩ => root
  | _ => f

/-- A new frame inside `outer`. -/
def addChild (fs : Frames) (outer : FrameId) : FrameId × Frames :=
  fs.push ⟨[], some outer, some (fs.rootOf outer)⟩

def isRoot (fs : Frames) (f : FrameId) : Bool :=
  match fs.get? f with
  | some ⟨_, some _, _⟩ => false
  | _ => true

/-- The value of a name in one frame. -/
def find? (fs : Frames) (f : FrameId) (name : String) : Option Value :=
  (fs.get? f).bind fun frame => frame.values.find? name

/-- Binds a name in one frame. -/
def bind (fs : Frames) (f : FrameId) (name : String) (v : Value) : Frames :=
  ⟨fs.cells.modify f fun frame => { frame with values := frame.values.insert name v }⟩

/-- Whether a name may be declared in a frame: a root takes any name, another frame refuses one
that it has. -/
def accepts (fs : Frames) (f : FrameId) (name : String) : Bool :=
  fs.isRoot f || (fs.find? f name).isNone

/-- Declares a name that the frame accepts. -/
def define (fs : Frames) (f : FrameId) (name : String) (v : Value) : Option Frames :=
  if fs.accepts f name then some (fs.bind f name v) else none

/-- Changes the value of a name that the frame has. -/
def assign (fs : Frames) (f : FrameId) (name : String) (v : Value) : Option Frames :=
  if (fs.find? f name).isSome then some (fs.bind f name v) else none

/-- The frame `n` links out from `f`. -/
def ancestor? (fs : Frames) (f : FrameId) : Nat → Option FrameId
  | 0 => some f
  | n + 1 =>
    match fs.get? f with
    | some ⟨_, some outer, _⟩ => fs.ancestor? outer n
    | _ => none

/-- The frame that a depth means, seen from `f`. -/
def target? (fs : Frames) (f : FrameId) : Depth → Option FrameId
  | .global => some (fs.rootOf f)
  | .hops n => fs.ancestor? f n

/-- The fault of a name that its frame lacks. -/
def missing (name : String) : Depth → Fault
  | .global => .runtime (.undefinedVariable name)
  | .hops n => .internal (.missingLocal name (.hops n))

/-- The frame that has a name at a depth, seen from `f`. -/
def holder (fs : Frames) (f : FrameId) (depth : Depth) (name : String) : Except Fault FrameId :=
  match fs.target? f depth with
  | none => .error (.internal (.noFrame depth name))
  | some frame =>
    if (fs.find? frame name).isSome then .ok frame else .error (missing name depth)

/-- The value of a name at a depth, seen from `f`. -/
def read (fs : Frames) (f : FrameId) (depth : Depth) (name : String) : Except Fault Value :=
  match fs.target? f depth with
  | none => .error (.internal (.noFrame depth name))
  | some frame =>
    match fs.find? frame name with
    | some v => .ok v
    | none => .error (missing name depth)

/-- Changes the value of a name at a depth, seen from `f`. -/
def write (fs : Frames) (f : FrameId) (depth : Depth) (name : String) (v : Value) :
    Except Fault Frames :=
  (fs.holder f depth name).map fun frame => fs.bind frame name v

end Frames
end Lox
