import Lox.Proofs.Lexical.Evaluation
import Lox.Proofs.Steps.Step

/-! Stores that differ in their functions only, and the actions that do not look at functions. -/
namespace Lox.Lexical
open Lox.Action

variable {α : Type}

namespace Store

def withFunctions (s : Store) (functions : Array Closure) : Store := { s with functions }

theorem function_objects (s : Store) (id : FunctionId) :
    (s.objects.function id).decl = (s.function id).decl := by
  simp only [Heap.function, objects, function, Array.getElem?_map]
  cases s.functions[id]? <;> rfl

theorem function_addFunction (s : Store) (c : Closure) (id : FunctionId) :
    (s.addFunction c).2.function id = if id = s.functions.size then c else s.function id := by
  simp only [addFunction, function, Array.getElem?_push]
  split <;> rfl

/-- The same store with functions that correspond to its own. -/
inductive Related (C : Closure → Closure → Prop) (s : Store) : Store → Prop
  | mk {functions : Array Closure} : functions.size = s.functions.size →
    (∀ id, C (s.function id) ((s.withFunctions functions).function id)) →
      Related C s (s.withFunctions functions)

namespace Related

variable {C : Closure → Closure → Prop} {s s' : Store}

theorem function (h : s.Related C s') (id : FunctionId) : C (s.function id) (s'.function id) := by
  cases h with
  | mk _ hf => exact hf id

theorem setWorld (h : s.Related C s') (f : World → World) :
    Related C { s with toWorld := f s.toWorld } { s' with toWorld := f s'.toWorld } := by
  cases h with
  | mk hsize hf => exact .mk hsize hf

theorem toWorld_eq (h : s.Related C s') : s'.toWorld = s.toWorld := by
  cases h
  rfl

theorem cells_eq (h : s.Related C s') : s'.cells = s.cells := by
  cases h
  rfl

theorem initializer?_eq (h : s.Related C s') (id : ClassId) :
    s'.objects.initializer? id = s.objects.initializer? id := by
  cases h
  rfl

theorem property?_eq (h : s.Related C s') (id : InstanceId) (name : String) :
    s'.objects.property? id name = s.objects.property? id name := by
  cases h
  rfl

theorem text_eq (hname : ∀ {c c' : Closure}, C c c' → c'.decl.name = c.decl.name)
    (h : s.Related C s') (v : Value) : v.text s'.objects = v.text s.objects := by
  have hf := h.function
  cases h with
  | mk _ _ =>
    cases v with
    | function id => simp only [Value.text, function_objects, hname (hf id)]
    | _ => rfl

theorem arity_eq
    (harity : ∀ {c c' : Closure}, C c c' → c'.decl.params.length = c.decl.params.length)
    (h : s.Related C s') (c : Callable) : c.arity s'.objects = c.arity s.objects := by
  have hfunction (id : FunctionId) :
      (s'.objects.function id).arity = (s.objects.function id).arity := by
    simp only [Function.arity, function_objects, harity (h.function id)]
  cases c with
  | native n => rfl
  | function id => exact hfunction id
  | classObject id =>
    simp only [Callable.arity, Heap.classArity, h.initializer?_eq id, hfunction]

theorem addFunction (h : s.Related C s') {c c' : Closure} (hc : C c c') :
    (s'.addFunction c').1 = (s.addFunction c).1 ∧
      (s.addFunction c).2.Related C (s'.addFunction c').2 := by
  have hid (id : FunctionId) :
      C ((s.addFunction c).2.function id) ((s'.addFunction c').2.function id) := by
    have hf := h.function id
    have hsize : s'.functions.size = s.functions.size := by
      cases h with
      | mk hsize _ => exact hsize
    rw [function_addFunction, function_addFunction, hsize]
    split
    · exact hc
    · exact hf
  cases h with
  | @mk functions hsize _ =>
    have hadded : (functions.push c').size = (s.addFunction c).2.functions.size := by
      simp [Store.addFunction, hsize]
    exact ⟨hsize, .mk hadded hid⟩

theorem addCell (h : s.Related C s') (v : Value) :
    (s'.addCell v).1 = (s.addCell v).1 ∧ (s.addCell v).2.Related C (s'.addCell v).2 := by
  cases h with
  | mk hsize hf => exact ⟨rfl, .mk hsize hf⟩

end Related
end Store

/-- The action takes no notice of functions. -/
def IgnoresFunctions (x : Action Store α) : Prop :=
  ∀ (s : Store) (functions : Array Closure),
    x (s.withFunctions functions) = (x s).onState (·.withFunctions functions)

/-- How such an action ends on stores that differ in their functions only. -/
inductive Answer.Related (C : Closure → Closure → Prop) (s : Store) :
    Answer Store α → Answer Store α → Prop
  | done {a : α} {t t' : Store} : t.functions = s.functions → t.Related C t' →
    Related C s (.done a t) (.done a t')
  | failed {d : Diagnostic} {t t' : Store} : t.Related C t' →
    Related C s (.failed d t) (.failed d t')
  | outOfFuel : Related C s .outOfFuel .outOfFuel

theorem IgnoresFunctions.related {C : Closure → Closure → Prop} {x : Action Store α}
    (h : IgnoresFunctions x) {s s' : Store} (hs : s.Related C s') :
    Answer.Related C s (x s) (x s') := by
  cases hs with
  | @mk functions hsize hf =>
    have hkeeps : x s = (x s).onState (·.withFunctions s.functions) := h s s.functions
    have hrelated {t : Store} (ht : t = t.withFunctions s.functions) :
        t.functions = s.functions ∧ t.Related C (t.withFunctions functions) := by
      have hfunctions : t.functions = s.functions := by
        rw [ht]
        rfl
      refine ⟨hfunctions, .mk (by rw [hsize, hfunctions]) fun id => ?_⟩
      have hid : t.function id = s.function id := by
        simp only [Store.function, hfunctions]
      rw [hid]
      exact hf id
    rw [h s functions]
    generalize x s = r at hkeeps
    cases r with
    | done a t =>
      injection hkeeps with _ ht
      obtain ⟨hfunctions, ht'⟩ := hrelated ht
      exact .done hfunctions ht'
    | failed d t =>
      injection hkeeps with _ ht
      exact .failed (hrelated ht).2
    | outOfFuel => exact .outOfFuel

theorem ignoresFunctions_fail (line : Nat) (f : Fault) :
    IgnoresFunctions (fail line f : Action Store α) := fun _ _ => rfl

theorem ignoresFunctions_lift (line : Nat) (r : Except RuntimeFault α) :
    IgnoresFunctions (lift line r) := by
  cases r <;> exact fun _ _ => rfl

theorem ignoresFunctions_finish (op : BinaryOp) (v w : Value) (line : Nat) :
    IgnoresFunctions (op.finish v w line) := by
  cases op with
  | strict op => exact ignoresFunctions_lift line _
  | _ => exact fun _ _ => rfl

theorem ignoresFunctions_read (env : Env) (name : String) (line : Nat) :
    IgnoresFunctions (read env name line) := by
  intro s functions
  simp only [read, Store.withFunctions]
  cases env.find? name with
  | some cell => rfl
  | none => cases s.globals.find? name <;> rfl

theorem ignoresFunctions_write (env : Env) (name : String) (v : Value) (line : Nat) :
    IgnoresFunctions (write env name v line) := by
  intro s functions
  simp only [write, Store.withFunctions]
  cases env.find? name with
  | some cell => rfl
  | none => by_cases h : s.globals.has name <;> simp [h, Answer.onState]

theorem ignoresFunctions_declare (env : Env) (name : String) (v : Value) :
    IgnoresFunctions (declare env name v) := by
  intro s functions
  cases env <;> rfl

theorem ignoresFunctions_assignHere (env : Env) (name : String) (v : Value) :
    IgnoresFunctions (assignHere env name v) := by
  intro s functions
  simp only [assignHere, Store.withFunctions]
  cases env.find? name with
  | some cell => rfl
  | none => by_cases h : s.globals.has name <;> simp [h, Answer.onState]

theorem ignoresFunctions_setField (id : InstanceId) (name : String) (v : Value) :
    IgnoresFunctions (setField id name v) := fun _ _ => rfl

theorem ignoresFunctions_print (text : String) : IgnoresFunctions (print text) := by
  intro s functions
  by_cases h : (s.toWorld.print text).1 <;> simp [print, Store.withFunctions, h, Answer.onState]

theorem ignoresFunctions_tick : IgnoresFunctions tick := fun _ _ => rfl

theorem ignoresFunctions_addInstance (id : ClassId) :
    IgnoresFunctions (allocate (·.addInstance id)) := fun _ _ => rfl

theorem ignoresFunctions_addClass (c : ClassObject) :
    IgnoresFunctions (allocate (·.addClass c)) := fun _ _ => rfl

end Lox.Lexical
