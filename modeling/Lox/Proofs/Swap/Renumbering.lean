import Lox.Proofs.Operators
import Lox.Proofs.Reach.Sound

/-! Heaps that are alike but for the numbers of their functions and classes, and for the order in
which their frames got the names. -/
namespace Lox

/-! Bindings of other values to the same names. -/
namespace Bindings

variable {α β : Type} (f : α → β) (b : Bindings α)

def mapValues : Bindings β := b.map fun entry => (entry.1, f entry.2)

@[simp] theorem find?_mapValues (name : String) :
    (b.mapValues f).find? name = (b.find? name).map f := by
  induction b with
  | nil => rfl
  | cons entry rest ih =>
    rcases entry with ⟨other, a⟩
    simp only [find?, mapValues, List.map_cons, List.lookup_cons] at ih ⊢
    split
    · rfl
    · exact ih

theorem mapValues_insert (name : String) (a : α) :
    (b.insert name a).mapValues f = (b.mapValues f).insert name (f a) := by
  induction b with
  | nil => rfl
  | cons entry rest ih =>
    rcases entry with ⟨other, c⟩
    simp only [mapValues] at ih
    simp only [insert, mapValues, List.map_cons]
    split
    · rfl
    · simp only [List.map_cons, ih]

@[simp] theorem names_mapValues : (b.mapValues f).names = b.names := by
  simp only [names, mapValues, List.map_map]
  rfl

theorem mapValues_eq_self {f : α → α} {b : Bindings α} (h : ∀ entry ∈ b, f entry.2 = entry.2) :
    b.mapValues f = b :=
  calc b.mapValues f
    _ = b.map id := List.map_congr_left fun entry hentry => Prod.ext rfl (h entry hentry)
    _ = b := b.map_id

end Bindings

/-- New numbers for functions and classes. -/
structure Renumbering where
  functionId : FunctionId → FunctionId
  classId : ClassId → ClassId
  functionId_injective : Function.Injective functionId
  classId_injective : Function.Injective classId

namespace Renumbering

variable (r : Renumbering)

def value : Value → Value
  | .function id => .function (r.functionId id)
  | .classObject id => .classObject (r.classId id)
  | v => v

def callable : Callable → Callable
  | .function id => .function (r.functionId id)
  | .classObject id => .classObject (r.classId id)
  | c => c

def signal : Signal → Signal
  | .returned v => .returned (r.value v)
  | s => s

def property : Heap.Property → Heap.Property
  | .field v => .field (r.value v)
  | .method id => .method (r.functionId id)

def classObject (c : ClassObject) : ClassObject := ⟨c.name, c.methods.mapValues r.functionId⟩

def object (i : Instance) : Instance := ⟨r.classId i.classId, i.fields.mapValues r.value⟩

/-! Values. -/

theorem value_of_isPlain {v : Value} (h : v.IsPlain) : r.value v = v := by
  cases v <;> first | rfl | exact absurd h id

@[simp] theorem value_isTruthy (v : Value) : (r.value v).isTruthy = v.isTruthy := by
  cases v <;> rfl

theorem value_equal (v w : Value) : (r.value v).equal (r.value w) = v.equal w := by
  have hf (i j : FunctionId) : (r.functionId i == r.functionId j) = (i == j) := by
    rw [Bool.eq_iff_iff, beq_iff_eq, beq_iff_eq, r.functionId_injective.eq_iff]
  have hc (i j : ClassId) : (r.classId i == r.classId j) = (i == j) := by
    rw [Bool.eq_iff_iff, beq_iff_eq, beq_iff_eq, r.classId_injective.eq_iff]
  cases v <;> cases w <;> simp only [value, Value.equal, hf, hc]

theorem value_callable? (v : Value) : (r.value v).callable? = v.callable?.map r.callable := by
  cases v <;> rfl

@[simp] theorem unary_value (op : UnaryOp) (v : Value) : op.apply (r.value v) = op.apply v := by
  cases op with
  | not => simp only [UnaryOp.apply, value_isTruthy]
  | negate => cases v <;> rfl

theorem settled?_value (op : BinaryOp) (v : Value) :
    op.settled? (r.value v) = (op.settled? v).map r.value := by
  cases op with
  | or | and =>
    simp only [BinaryOp.settled?, value_isTruthy]
    split <;> rfl
  | strict => rfl

theorem onNumbers_value (f : Float → Float → Except RuntimeFault Value) (v w : Value) :
    onNumbers f (r.value v) (r.value w) = onNumbers f v w := by
  cases v <;> cases w <;> rfl

@[simp] theorem strict_value (op : StrictOp) (v w : Value) :
    op.apply (r.value v) (r.value w) = op.apply v w := by
  cases op with
  | equal | notEqual => simp only [StrictOp.apply, value_equal]
  | add => cases v <;> cases w <;> rfl
  | subtract | multiply | divide | less | lessEqual | greater | greaterEqual =>
    exact r.onNumbers_value _ v w

end Renumbering

/-! Frames. -/
namespace Frames

/-- What is around a frame. -/
def links? (fs : Frames) (f : FrameId) : Option (Option FrameId × Option FrameId) :=
  (fs.get? f).map fun frame => (frame.enclosing, frame.root)

theorem rootOf_eq (fs : Frames) (f : FrameId) :
    fs.rootOf f = ((fs.links? f).bind (·.2)).getD f := by
  unfold rootOf links?
  cases fs.get? f with
  | none => rfl
  | some frame => rcases frame with ⟨_, _, _ | root⟩ <;> rfl

theorem isRoot_eq (fs : Frames) (f : FrameId) :
    fs.isRoot f = ((fs.links? f).bind (·.1)).isNone := by
  unfold isRoot links?
  cases fs.get? f with
  | none => rfl
  | some frame => rcases frame with ⟨_, _ | outer, _⟩ <;> rfl

theorem ancestor?_succ (fs : Frames) (f : FrameId) (n : Nat) :
    fs.ancestor? f (n + 1) =
      ((fs.links? f).bind (·.1)).bind fun outer => fs.ancestor? outer n := by
  rw [ancestor?, links?]
  cases fs.get? f with
  | none => rfl
  | some frame => rcases frame with ⟨_, _ | outer, _⟩ <;> rfl

theorem links?_bind (fs : Frames) (f g : FrameId) (name : String) (v : Value) :
    (fs.bind f name v).links? g = fs.links? g := by
  simp only [links?, get?_bind, Option.map_map]
  refine congrArg (Option.map · _) (funext fun frame => ?_)
  simp only [Function.comp]
  split <;> rfl

theorem links?_addChild (fs : Frames) (outer g : FrameId) :
    (fs.addChild outer).2.links? g =
      if g = fs.size then some (some outer, some (fs.rootOf outer)) else fs.links? g := by
  simp only [links?, get?_addChild]
  split <;> rfl

@[simp] theorem size_bind (fs : Frames) (f : FrameId) (name : String) (v : Value) :
    (fs.bind f name v).size = fs.size :=
  Array.size_modify

/-- Frames with the same links, whose names have the values with the new numbers. -/
structure Renumbered (r : Renumbering) (fs fs' : Frames) : Prop where
  size : fs'.size = fs.size
  links? (f : FrameId) : fs'.links? f = fs.links? f
  find? (f : FrameId) (name : String) : fs'.find? f name = (fs.find? f name).map r.value

namespace Renumbered

variable {r : Renumbering} {fs fs' : Frames} (h : fs.Renumbered r fs')
include h

theorem rootOf (f : FrameId) : fs'.rootOf f = fs.rootOf f := by
  rw [rootOf_eq, rootOf_eq, h.links?]

theorem isSome_find? (f : FrameId) (name : String) :
    (fs'.find? f name).isSome = (fs.find? f name).isSome := by
  rw [h.find?, Option.isSome_map]

theorem accepts (f : FrameId) (name : String) : fs'.accepts f name = fs.accepts f name := by
  simp only [Frames.accepts, isRoot_eq, h.links?, h.find?, Option.isNone_map]

theorem ancestor? (f : FrameId) (n : Nat) : fs'.ancestor? f n = fs.ancestor? f n := by
  induction n generalizing f with
  | zero => rfl
  | succ n ih => simp only [ancestor?_succ, h.links?, ih]

theorem target? (f : FrameId) (depth : Depth) : fs'.target? f depth = fs.target? f depth := by
  cases depth with
  | global => simp only [Frames.target?, h.rootOf]
  | hops n => exact h.ancestor? f n

theorem holder (f : FrameId) (depth : Depth) (name : String) :
    fs'.holder f depth name = fs.holder f depth name := by
  simp only [Frames.holder, h.target?, h.isSome_find?]

theorem read (f : FrameId) (depth : Depth) (name : String) :
    fs'.read f depth name = (fs.read f depth name).map r.value := by
  simp only [Frames.read, h.target?]
  split
  · rfl
  · rw [h.find?]
    cases fs.find? _ name <;> rfl

theorem bind (f : FrameId) (name : String) (v : Value) :
    (fs.bind f name v).Renumbered r (fs'.bind f name (r.value v)) where
  size := by simp only [size_bind, h.size]
  links? g := by simp only [links?_bind, h.links?]
  find? g other := by
    by_cases hf : f < fs.size
    · rw [find?_bind hf, find?_bind (h.size ▸ hf), h.find?]
      split <;> rfl
    · have hsame (fs : Frames) (hf : ¬ f < fs.size) (v : Value) : fs.bind f name v = fs := by
        have hout : ¬ f < fs.cells.size := hf
        simp only [Frames.bind, Array.modify, Array.modifyM, dif_neg hout]
        rfl
      rw [hsame fs hf, hsame fs' (h.size ▸ hf), h.find?]

theorem addChild (outer : FrameId) : (fs.addChild outer).2.Renumbered r (fs'.addChild outer).2 where
  size := by simp only [size_addChild, h.size]
  links? g := by simp only [links?_addChild, h.links?, h.size, h.rootOf]
  find? g name := by simp only [find?_addChild, h.find?]

end Renumbered
end Frames

/-! Heaps. -/

namespace Heap

/-- The heap with the new numbers. What is made from now on has the same number in both heaps. -/
structure Renumbered (r : Renumbering) (h h' : Heap) : Prop where
  frames : h.frames.Renumbered r h'.frames
  functionCount : h'.functions.size = h.functions.size
  functions (id : FunctionId) : h'.functions[r.functionId id]? = h.functions[id]?
  newFunction {id : FunctionId} : h.functions.size ≤ id → r.functionId id = id
  classCount : h'.classes.size = h.classes.size
  classes (id : ClassId) : h'.classes[r.classId id]? = h.classes[id]?.map r.classObject
  newClass {id : ClassId} : h.classes.size ≤ id → r.classId id = id
  objects : h'.instances = h.instances.map r.object

namespace Renumbered

variable {r : Renumbering} {h h' : Heap} (hr : h.Renumbered r h')

section Reading
include hr

theorem function (id : FunctionId) : h'.function (r.functionId id) = h.function id := by
  simp only [Heap.function, hr.functions]

theorem classObject (id : ClassId) :
    h'.classObject (r.classId id) = r.classObject (h.classObject id) := by
  simp only [Heap.classObject, hr.classes]
  cases h.classes[id]? <;> rfl

/-- A place that was never given out would hold an instance of another class. -/
theorem object {id : InstanceId} (hid : Region.whole.Allows h (.object id)) :
    h'.object id = r.object (h.object id) := by
  have hlt : id < h.instances.size := Region.whole_allows.1 hid
  simp [Heap.object, hr.objects, hlt]

theorem classOf {id : InstanceId} (hid : Region.whole.Allows h (.object id)) :
    h'.classOf id = r.classObject (h.classOf id) := by
  simp only [Heap.classOf, hr.object hid]
  exact hr.classObject _

theorem property? {id : InstanceId} (hid : Region.whole.Allows h (.object id)) (name : String) :
    h'.property? id name = (h.property? id name).map r.property := by
  simp only [Heap.property?, hr.object hid, hr.classOf hid, Renumbering.object,
    Renumbering.classObject, Bindings.find?_mapValues]
  cases (h.object id).fields.find? name with
  | some v => rfl
  | none => cases (h.classOf id).methods.find? name <;> rfl

theorem initializer? (id : ClassId) :
    h'.initializer? (r.classId id) = (h.initializer? id).map r.functionId := by
  simp only [Heap.initializer?, hr.classObject, Renumbering.classObject, Bindings.find?_mapValues]

theorem arity (c : Callable) : (r.callable c).arity h' = c.arity h := by
  cases c with
  | native n => rfl
  | function id => exact congrArg Function.arity (hr.function id)
  | classObject id =>
    simp only [Renumbering.callable, Callable.arity, Heap.classArity, hr.initializer?]
    cases h.initializer? id with
    | none => rfl
    | some method => exact congrArg Function.arity (hr.function method)

/-! No value shows a number. -/

theorem text {v : Value} (hv : Region.whole.AllowsAll h v.places) :
    (r.value v).text h' = v.text h := by
  cases v with
  | function id => simp only [Renumbering.value, Value.text, hr.function]
  | classObject id =>
    simp only [Renumbering.value, Value.text, hr.classObject, Renumbering.classObject]
  | object id =>
    have hid := Region.allowsAll_singleton.1 hv
    simp only [Renumbering.value, Value.text, hr.classOf hid, Renumbering.classObject]
  | _ => rfl

theorem description {v : Value} (hv : Region.whole.AllowsAll h v.places) :
    (r.value v).description h' = v.description h := by
  cases v with
  | function id => simp only [Renumbering.value, Value.description, hr.function]
  | classObject id =>
    simp only [Renumbering.value, Value.description, hr.classObject, Renumbering.classObject,
      Bindings.names_mapValues]
  | object id =>
    have hid := Region.allowsAll_singleton.1 hv
    simp only [Renumbering.value, Value.description, hr.classOf hid, hr.object hid,
      Renumbering.classObject, Renumbering.object, Bindings.names_mapValues]
  | _ => rfl

end Reading

section Changes
include hr

theorem withFrames {fs fs' : Frames} (hf : fs.Renumbered r fs') :
    Renumbered r { h with frames := fs } { h' with frames := fs' } :=
  { hr with frames := hf }

theorem bind (f : FrameId) (name : String) (v : Value) :
    (h.bind f name v).Renumbered r (h'.bind f name (r.value v)) :=
  hr.withFrames (hr.frames.bind f name v)

theorem addFrame (outer : FrameId) : (h'.addFrame outer).1 = (h.addFrame outer).1 ∧
    (h.addFrame outer).2.Renumbered r (h'.addFrame outer).2 :=
  ⟨hr.frames.size, hr.withFrames (hr.frames.addChild outer)⟩

theorem addFunction (f : Function) : (h'.addFunction f).1 = r.functionId (h.addFunction f).1 ∧
    (h.addFunction f).2.Renumbered r (h'.addFunction f).2 := by
  have hnew : r.functionId h.functions.size = h.functions.size := hr.newFunction (Nat.le_refl _)
  refine ⟨hr.functionCount.trans hnew.symm, { hr with
    functionCount := ?_, functions := fun id => ?_, newFunction := fun hid => ?_ }⟩
  · simp [Heap.addFunction, hr.functionCount]
  · have hsame : r.functionId id = h.functions.size ↔ id = h.functions.size := by
      rw [← r.functionId_injective.eq_iff (a := id), hnew]
    simp only [Heap.addFunction, Array.getElem?_push, hr.functionCount, hsame, hr.functions]
  · simp only [Heap.addFunction, Array.size_push] at hid
    exact hr.newFunction (Nat.le_of_succ_le hid)

theorem addClass (c : ClassObject) :
    (h'.addClass (r.classObject c)).1 = r.classId (h.addClass c).1 ∧
      (h.addClass c).2.Renumbered r (h'.addClass (r.classObject c)).2 := by
  have hnew : r.classId h.classes.size = h.classes.size := hr.newClass (Nat.le_refl _)
  refine ⟨hr.classCount.trans hnew.symm, { hr with
    classCount := ?_, classes := fun id => ?_, newClass := fun hid => ?_ }⟩
  · simp [Heap.addClass, hr.classCount]
  · have hsame : r.classId id = h.classes.size ↔ id = h.classes.size := by
      rw [← r.classId_injective.eq_iff (a := id), hnew]
    simp only [Heap.addClass, Array.getElem?_push, hr.classCount, hsame, hr.classes]
    split <;> rfl
  · simp only [Heap.addClass, Array.size_push] at hid
    exact hr.newClass (Nat.le_of_succ_le hid)

theorem addInstance (id : ClassId) : (h'.addInstance (r.classId id)).1 = (h.addInstance id).1 ∧
    (h.addInstance id).2.Renumbered r (h'.addInstance (r.classId id)).2 := by
  refine ⟨by simp [Heap.addInstance, hr.objects], { hr with objects := ?_ }⟩
  simp [Heap.addInstance, hr.objects, Array.map_push, Renumbering.object, Bindings.mapValues]

theorem setField (id : InstanceId) (name : String) (v : Value) :
    (h.setField id name v).Renumbered r (h'.setField id name (r.value v)) := by
  refine { hr with objects := ?_ }
  apply Array.ext_getElem?
  intro i
  simp only [Heap.setField, hr.objects, Array.getElem?_modify, Array.getElem?_map]
  split
  · simp [Option.map_map, Function.comp_def, Renumbering.object, Bindings.mapValues_insert]
  · rfl

end Changes

theorem addMethods (hr : h.Renumbered r h') (frame : FrameId) (methods : List (FunDecl Stmt))
    (table : Bindings FunctionId) :
    (h'.addMethods frame methods (table.mapValues r.functionId)).1 =
        (h.addMethods frame methods table).1.mapValues r.functionId ∧
      (h.addMethods frame methods table).2.Renumbered r
        (h'.addMethods frame methods (table.mapValues r.functionId)).2 := by
  induction methods generalizing h h' table with
  | nil => exact ⟨rfl, hr⟩
  | cons decl rest ih =>
    obtain ⟨hid, hmade⟩ := hr.addFunction ⟨decl, frame⟩
    simp only [Heap.addMethods]
    rw [hid, ← Bindings.mapValues_insert]
    exact ih hmade _

theorem bindMethod (hr : h.Renumbered r h') (method : FunctionId) (receiver : InstanceId) :
    (h'.bindMethod (r.functionId method) receiver).1 =
        r.functionId (h.bindMethod method receiver).1 ∧
      (h.bindMethod method receiver).2.Renumbered r
        (h'.bindMethod (r.functionId method) receiver).2 := by
  obtain ⟨hframe, hinner⟩ := hr.addFrame (h.function method).closure
  simp only [Heap.bindMethod, hr.function]
  rw [hframe]
  exact (hinner.bind _ "this" (.object receiver)).addFunction _

end Renumbered
end Heap
end Lox
