import Lox.Evaluation
import Lox.Proofs.Lines.Relined

/-! Machines whose functions have other lines, and actions that fail at other lines. -/
namespace Lox

section
variable (φ ψ : Nat → Nat)

def Function.relined (f : Function) : Function := { f with decl := functionRelined φ f.decl }

@[simp] theorem Function.relined_arity (f : Function) : (f.relined φ).arity = f.arity :=
  congrArg List.length (functionRelined_params φ f.decl)

namespace Heap

def relined (h : Heap) : Heap := { h with functions := h.functions.map (.relined φ) }

@[simp] theorem relined_frames (h : Heap) : (h.relined φ).frames = h.frames := rfl

@[simp] theorem relined_relined (h : Heap) : (h.relined φ).relined ψ = h.relined (ψ ∘ φ) := by
  have hf : Function.relined ψ ∘ Function.relined φ = Function.relined (ψ ∘ φ) :=
    funext fun f => congrArg (Function.mk · f.closure) (functionRelined_relined φ ψ f.decl)
  simp only [relined, Array.map_map, hf]

@[simp] theorem relined_id (h : Heap) : h.relined id = h := by
  have hf : Function.relined id = id :=
    funext fun f => congrArg (Function.mk · f.closure) (functionRelined_id f.decl)
  simp only [relined, hf, Array.map_id]

theorem relined_addFunction (h : Heap) (f : Function) :
    (h.relined φ).addFunction (f.relined φ) =
      ((h.addFunction f).1, (h.addFunction f).2.relined φ) := by
  simp only [relined, addFunction, Array.size_map, Array.map_push]

theorem relined_addMethods (frame : FrameId) (methods : List (FunDecl Stmt)) (h : Heap)
    (table : Bindings FunctionId) :
    (h.relined φ).addMethods frame (methodsRelined φ methods) table =
      ((h.addMethods frame methods table).1, (h.addMethods frame methods table).2.relined φ) := by
  induction methods generalizing h table with
  | nil => rfl
  | cons decl rest ih =>
    have hfirst := relined_addFunction φ h ⟨decl, frame⟩
    simp only [methodsRelined, addMethods, functionRelined_name]
    rw [show (⟨functionRelined φ decl, frame⟩ : Function) = Function.relined φ ⟨decl, frame⟩ from rfl,
      hfirst]
    exact ih _ _

variable {φ} (h0 : φ 0 = 0)
include h0

/-- The line of the function at a place that was never given out is 0. -/
theorem relined_function (h : Heap) (id : FunctionId) :
    (h.relined φ).function id = (h.function id).relined φ := by
  simp only [function, relined, Array.getElem?_map]
  cases h.functions[id]? with
  | none => simp [Function.relined, functionRelined, statementsRelined, h0]
  | some f => rfl

theorem relined_classArity (h : Heap) (id : ClassId) :
    (h.relined φ).classArity id = h.classArity id := by
  unfold classArity
  rw [show (h.relined φ).initializer? id = h.initializer? id from rfl]
  cases h.initializer? id with
  | none => rfl
  | some method => simp only [relined_function h0, Function.relined_arity]

theorem relined_bindMethod (h : Heap) (method : FunctionId) (receiver : InstanceId) :
    (h.relined φ).bindMethod method receiver =
      ((h.bindMethod method receiver).1, (h.bindMethod method receiver).2.relined φ) := by
  let f := h.function method
  let r := h.addFrame f.closure
  simp only [bindMethod, relined_function h0]
  exact relined_addFunction φ (r.2.bind r.1 "this" (.object receiver)) ⟨f.decl, r.1⟩

end Heap

theorem Callable.arity_relined {φ : Nat → Nat} (h0 : φ 0 = 0) (h : Heap) (c : Callable) :
    c.arity (h.relined φ) = c.arity h := by
  cases c with
  | native n => rfl
  | function id => simp only [arity, Heap.relined_function h0, Function.relined_arity]
  | classObject id => exact h.relined_classArity h0 id

/-! No value shows a line. -/

theorem Value.text_relined {φ : Nat → Nat} (h0 : φ 0 = 0) (h : Heap) (v : Value) :
    v.text (h.relined φ) = v.text h := by
  cases v with
  | function id =>
    simp only [text, Heap.relined_function h0, Function.relined, functionRelined_name]
  | _ => rfl

theorem Value.description_relined {φ : Nat → Nat} (h0 : φ 0 = 0) (h : Heap) (v : Value) :
    v.description (h.relined φ) = v.description h := by
  cases v with
  | function id =>
    have hname : ((h.relined φ).function id).decl.name = (h.function id).decl.name := by
      simp only [Heap.relined_function h0, Function.relined, functionRelined_name]
    have harity : ((h.relined φ).function id).arity = (h.function id).arity := by
      rw [Heap.relined_function h0, Function.relined_arity]
    simp only [description, hname, harity]
  | _ => rfl

theorem Signal.description_relined {φ : Nat → Nat} (h0 : φ 0 = 0) (h : Heap) (signal : Signal) :
    signal.description (h.relined φ) = signal.description h := by
  cases signal with
  | normal => rfl
  | exit e => cases e <;> rfl
  | returned v => simp only [description, Value.description_relined h0]

def Machine.relined (m : Machine) : Machine := { m with heap := m.heap.relined φ }

@[simp] theorem Machine.relined_heap (m : Machine) : (m.relined φ).heap = m.heap.relined φ := rfl

@[simp] theorem Machine.relined_current (m : Machine) : (m.relined φ).current = m.current := rfl

@[simp] theorem Machine.relined_toWorld (m : Machine) : (m.relined φ).toWorld = m.toWorld := rfl

@[simp] theorem Machine.relined_relined (m : Machine) :
    (m.relined φ).relined ψ = m.relined (ψ ∘ φ) := by
  simp only [relined, Heap.relined_relined]

@[simp] theorem Machine.relined_id (m : Machine) : m.relined id = m := by
  simp only [relined, Heap.relined_id]

end

variable {α β : Type} {φ : Nat → Nat}

def Answer.relined (φ : Nat → Nat) : Answer Machine α → Answer Machine α
  | .done a m => .done a (m.relined φ)
  | .failed d m => .failed (d.relined φ) (m.relined φ)
  | .outOfFuel => .outOfFuel

/-- The second action, which has the other lines, does what the first does. -/
def Action.Relines (φ : Nat → Nat) (x x' : Action Machine α) : Prop :=
  ∀ m, x' (m.relined φ) = (x m).relined φ

namespace Action.Relines

theorem pure (a : α) : Relines φ (Pure.pure a : Action Machine α) (Pure.pure a) := fun _ => rfl

theorem fuelSpent : Relines φ (Action.fuelSpent : Action Machine α) Action.fuelSpent :=
  fun _ => rfl

theorem fail (line : Nat) (f : Fault) :
    Relines φ (Action.fail line f : Action Machine α) (Action.fail (φ line) f) := fun _ => rfl

theorem failRuntime (line : Nat) (f : RuntimeFault) :
    Relines φ (Action.failRuntime line f : Action Machine α) (Action.failRuntime (φ line) f) :=
  .fail line _

theorem lift (line : Nat) (r : Except RuntimeFault α) :
    Relines φ (Action.lift line r : Action Machine α) (Action.lift (φ line) r) := by
  cases r with
  | ok a => exact .pure a
  | error f => exact .failRuntime line f

theorem finish (op : BinaryOp) (v w : Value) (line : Nat) :
    Relines φ (op.finish v w line : Action Machine Value) (op.finish v w (φ line)) := by
  cases op with
  | strict op => exact .lift line _
  | _ => exact .pure w

theorem bind {x x' : Action Machine α} {f f' : α → Action Machine β} (hx : Relines φ x x')
    (hf : ∀ a, Relines φ (f a) (f' a)) : Relines φ (x >>= f) (x' >>= f') := by
  intro m
  rw [bind_apply, bind_apply, hx]
  cases x m with
  | done a m' => exact hf a m'
  | failed d m' => rfl
  | outOfFuel => rfl

/-- A look at the machine, which may see a line. -/
theorem look {f : Machine → α} {k k' : α → Action Machine β}
    (h : ∀ m, Relines φ (k (f m)) (k' (f (m.relined φ)))) :
    Relines φ (Action.inspect f >>= k) (Action.inspect f >>= k') := fun m => h m m

theorem inspect {f : Machine → α} {k k' : α → Action Machine β}
    (hf : ∀ m, f (m.relined φ) = f m) (h : ∀ a, Relines φ (k a) (k' a)) :
    Relines φ (Action.inspect f >>= k) (Action.inspect f >>= k') :=
  .look fun m => (hf m).symm ▸ h (f m)

theorem ite {p : Prop} [Decidable p] {x x' y y' : Action Machine α} (h : Relines φ x x')
    (h' : Relines φ y y') : Relines φ (if p then x else y) (if p then x' else y') := by
  split
  · exact h
  · exact h'

theorem allocate {f f' : Heap → α × Heap}
    (h : ∀ heap, f' (heap.relined φ) = ((f heap).1, (f heap).2.relined φ)) :
    Relines φ (Machine.allocate f) (Machine.allocate f') := by
  intro m
  simp only [Machine.allocate, Machine.relined_heap, h]
  rfl

theorem setField (id : InstanceId) (name : String) (v : Value) :
    Relines φ (Machine.setField id name v) (Machine.setField id name v) := fun _ => rfl

theorem read (o : Occurrence) (line : Nat) :
    Relines φ (Machine.read o line) (Machine.read o (φ line)) := by
  intro m
  simp only [Machine.read, Machine.relined_heap, Machine.relined_current, Heap.relined_frames]
  split <;> rfl

theorem write (o : Occurrence) (v : Value) (line : Nat) :
    Relines φ (Machine.write o v line) (Machine.write o v (φ line)) := by
  intro m
  simp only [Machine.write, Machine.relined_heap, Machine.relined_current, Heap.relined_frames]
  split <;> rfl

theorem property (h0 : φ 0 = 0) (id : InstanceId) (name : String) (line : Nat) :
    Relines φ (Machine.property id name line) (Machine.property id name (φ line)) := by
  unfold Machine.property
  refine .inspect (fun _ => rfl) fun found => ?_
  cases found with
  | none => exact .failRuntime _ _
  | some found =>
    cases found with
    | field v => exact .pure v
    | method method =>
      exact .bind (.allocate fun heap => heap.relined_bindMethod h0 method id) fun _ => .pure _

theorem define (name : String) (v : Value) (line : Nat) :
    Relines φ (Machine.define name v line) (Machine.define name v (φ line)) := by
  intro m
  cases h : m.heap.frames.accepts m.current name <;>
    simp only [Machine.define, Machine.relined_heap, Machine.relined_current,
      Heap.relined_frames, h] <;> rfl

theorem assignHere (name : String) (v : Value) :
    Relines φ (Machine.assignHere name v) (Machine.assignHere name v) := by
  intro m
  cases h : (m.heap.frames.find? m.current name).isSome <;>
    simp only [Machine.assignHere, Machine.relined_heap, Machine.relined_current,
      Heap.relined_frames, h] <;> rfl

theorem defineAll (frame : FrameId) (entries : List (String × Value)) :
    Relines φ (Machine.defineAll frame entries) (Machine.defineAll frame entries) := by
  induction entries with
  | nil => exact .pure ()
  | cons entry rest ih =>
    intro m
    have hentry : (if m.heap.frames.accepts frame entry.1 then
        (m.relined φ).bind frame entry.1 entry.2 else m.relined φ) =
          (if m.heap.frames.accepts frame entry.1 then m.bind frame entry.1 entry.2 else m).relined
            φ := by
      split <;> rfl
    exact (congrArg (fun m => Machine.defineAll frame rest m) hentry).trans (ih _)

/-- What does not fit into the sink is reported at line 0. -/
theorem print (h0 : φ 0 = 0) (text : String) :
    Relines φ (Machine.print text) (Machine.print text) := by
  intro m
  have hline : Diagnostic.sinkFull.relined φ = .sinkFull := congrArg (Diagnostic.mk · _) h0
  cases hr : (m.toWorld.print text).1 with
  | true =>
    simp only [Machine.print, Machine.relined_toWorld, hr, if_true]
    rfl
  | false =>
    simp only [Machine.print, Machine.relined_toWorld, hr, Bool.false_eq_true, if_false,
      Answer.relined, hline]
    rfl

theorem tick : Relines φ Machine.tick Machine.tick := fun _ => rfl

theorem inFrame (frame : FrameId) {x x' : Action Machine α} (h : Relines φ x x') :
    Relines φ (Machine.inFrame frame x) (Machine.inFrame frame x') := by
  intro m
  have hm : ({ m.relined φ with current := frame } : Machine) =
      Machine.relined φ { m with current := frame } := rfl
  simp only [Machine.inFrame, hm]
  rw [h]
  cases x { m with current := frame } <;> rfl

theorem inNewFrame {x x' : Action Machine α} (h : Relines φ x x') :
    Relines φ (Machine.inNewFrame x) (Machine.inNewFrame x') :=
  .inspect (fun _ => rfl) fun _ => .bind (.allocate fun _ => rfl) fun frame => h.inFrame frame

theorem asCall (line : Nat) {x x' : Action Machine α} (h : Relines φ x x') :
    Relines φ (Machine.asCall line x) (Machine.asCall (φ line) x') := by
  intro m
  have hrun : x' { m.relined φ with toWorld := (m.relined φ).enterCall } =
      (x { m with toWorld := m.enterCall }).relined φ := h { m with toWorld := m.enterCall }
  unfold Machine.asCall
  rw [show (m.relined φ).atLimit = m.atLimit from rfl, hrun]
  cases m.atLimit with
  | true => rfl
  | false => cases x { m with toWorld := m.enterCall } <;> rfl

end Action.Relines
end Lox
