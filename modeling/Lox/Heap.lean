import Lox.Frames
import Lox.Tree
import Lox.Text.Quoted

/-! The heap of a running program: frames, functions, classes and instances, each known by the
place it was given when it was made. Nothing is ever removed. -/
namespace Lox

/-- A function is its declaration and the frame that was current where it was made. -/
structure Function where
  decl : FunDecl Stmt
  closure : FrameId

def Function.arity (f : Function) : Nat := f.decl.params.length

structure ClassObject where
  name : String
  methods : Bindings FunctionId

structure Instance where
  classId : ClassId
  fields : Bindings Value

structure Heap where
  frames : Frames
  functions : Array Function
  classes : Array ClassObject
  instances : Array Instance

namespace Heap

def empty : Heap := ⟨.empty, #[], #[], #[]⟩

/-- Places that were never given out hold an empty function, class or instance. -/
def function (h : Heap) (id : FunctionId) : Function :=
  h.functions[id]?.getD ⟨⟨"", [], [], 0, 0⟩, 0⟩

def classObject (h : Heap) (id : ClassId) : ClassObject := h.classes[id]?.getD ⟨"", []⟩

def object (h : Heap) (id : InstanceId) : Instance := h.instances[id]?.getD ⟨0, []⟩

/-- The class of an instance. -/
def classOf (h : Heap) (id : InstanceId) : ClassObject := h.classObject (h.object id).classId

def addFunction (h : Heap) (f : Function) : FunctionId × Heap :=
  (h.functions.size, { h with functions := h.functions.push f })

def addClass (h : Heap) (c : ClassObject) : ClassId × Heap :=
  (h.classes.size, { h with classes := h.classes.push c })

def addInstance (h : Heap) (c : ClassId) : InstanceId × Heap :=
  (h.instances.size, { h with instances := h.instances.push ⟨c, []⟩ })

/-- A new frame inside `outer`. -/
def addFrame (h : Heap) (outer : FrameId) : FrameId × Heap :=
  let r := h.frames.addChild outer
  (r.1, { h with frames := r.2 })

def setField (h : Heap) (id : InstanceId) (name : String) (v : Value) : Heap :=
  { h with instances := h.instances.modify id fun i => { i with fields := i.fields.insert name v } }

/-- Binds a name in one frame. -/
def bind (h : Heap) (f : FrameId) (name : String) (v : Value) : Heap :=
  { h with frames := h.frames.bind f name v }

/-- Functions for the methods of a class, closed over `frame`. Of two methods of one name the
later one stays. -/
def addMethods (h : Heap) (frame : FrameId) :
    List (FunDecl Stmt) → Bindings FunctionId → Bindings FunctionId × Heap
  | [], methods => (methods, h)
  | decl :: rest, methods =>
    let r := h.addFunction ⟨decl, frame⟩
    addMethods r.2 frame rest (methods.insert decl.name r.1)

/-- The function made of a method and a receiver: its body sees one more frame, which holds the
receiver as `this`. -/
def bindMethod (h : Heap) (method : FunctionId) (receiver : InstanceId) : FunctionId × Heap :=
  let f := h.function method
  let r := h.addFrame f.closure
  (r.2.bind r.1 "this" (.object receiver)).addFunction ⟨f.decl, r.1⟩

/-- What a property name means on an instance. -/
inductive Property where
  | field (v : Value)
  | method (id : FunctionId)
  deriving Repr

/-- A field of that name, or else the method of that name. -/
def property? (h : Heap) (id : InstanceId) (name : String) : Option Property :=
  match (h.object id).fields.find? name with
  | some v => some (.field v)
  | none => ((h.classOf id).methods.find? name).map .method

/-- The method that runs on a new instance. -/
def initializer? (h : Heap) (id : ClassId) : Option FunctionId :=
  (h.classObject id).methods.find? "init"

/-- A class takes what its initializer takes. -/
def classArity (h : Heap) (id : ClassId) : Nat :=
  match h.initializer? id with
  | some method => (h.function method).arity
  | none => 0

end Heap

/-- What `print` shows of a value. -/
def Value.text (h : Heap) : Value → String
  | .nil => "nil"
  | .bool b => if b then "true" else "false"
  | .number x => Number.printed.write x
  | .string s => s
  | .native n => "<native fn " ++ n.name ++ ">"
  | .function id => "<fn " ++ (h.function id).decl.name ++ ">"
  | .classObject id => "<class " ++ (h.classObject id).name ++ ">"
  | .object id => "<" ++ (h.classOf id).name ++ " instance>"

/-- How a statement ends: normally, on the way out of a loop, or on the way out of a function. -/
inductive Signal where
  | normal
  | exit (e : LoopExit)
  | returned (v : Value)
  deriving Repr

private def fields (title : String) (entries : List (String × String)) : String :=
  title ++ " \x7b " ++ ", ".intercalate (entries.map fun e => e.1 ++ ": " ++ e.2) ++ " \x7d"

private def callable (title name : String) (arity : Nat) : String :=
  fields title [("name", Text.quoted name), ("arity", String.ofList (Nat.toDigits 10 arity))]

private def nameList (names : List String) : String :=
  "[" ++ ", ".intercalate (names.map Text.quoted) ++ "]"

/-- A value as it is described in reports about the program itself. -/
def Value.description (h : Heap) : Value → String
  | .nil => "Nil"
  | .bool b => "Bool(" ++ (if b then "true" else "false") ++ ")"
  | .number x => "Number(" ++ Number.inSignal.write x ++ ")"
  | .string s => "String(" ++ Text.quoted s ++ ")"
  | .native n => "Native(" ++ callable "NativeFunction" n.name n.arity ++ ")"
  | .function id =>
    "Function(" ++ callable "Function" (h.function id).decl.name (h.function id).arity ++ ")"
  | .classObject id =>
    "Class(" ++ fields "Class"
      [("name", Text.quoted (h.classObject id).name),
       ("methods", nameList (h.classObject id).methods.names)] ++ ")"
  | .object id =>
    "Instance(" ++ fields "Instance"
      [("class", Text.quoted (h.classOf id).name),
       ("fields", nameList (h.object id).fields.names)] ++ ")"

def Signal.description (h : Heap) : Signal → String
  | .normal => "Normal"
  | .exit .toEnd => "Break"
  | .exit .toNext => "Continue"
  | .returned v => "Return(" ++ v.description h ++ ")"

end Lox
