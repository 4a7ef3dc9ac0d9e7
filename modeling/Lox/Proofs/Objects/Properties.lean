import Lox.Proofs.Objects.Moments
import Lox.Proofs.Reach.Places
import Lox.Proofs.Steps.Completing

/-! Properties of instances, at every moment of every run. -/
namespace Lox

open Lox.Action

variable {α : Type}

/-! What a read gives. -/

namespace Heap

variable {h : Heap} {frame : FrameId}

/-- The value is none that is still to be made. -/
def Has (h : Heap) (v : Value) : Prop := ∀ p ∈ v.places, p.index < h.count p

/-- The later heap has one more function. It has the body of `decl`, and what it sees around it is a
frame of its own, with the receiver, inside `frame`. -/
structure Binds (h : Heap) (decl : FunDecl Stmt) (frame : FrameId) (receiver : InstanceId)
    (h' : Heap) : Prop where
  functions : h'.functions = h.functions.push ⟨decl, h.frames.size⟩
  this : h'.frames.get? h.frames.size =
    some ⟨[("this", .object receiver)], some frame, some (h.frames.rootOf frame)⟩
  frames : ∀ f ≠ h.frames.size, h'.frames.get? f = h.frames.get? f
  classes : h'.classes = h.classes
  instances : h'.instances = h.instances

theorem bindMethod_binds {method : FunctionId} {decl : FunDecl Stmt}
    (hm : h.functions[method]? = some ⟨decl, frame⟩) (receiver : InstanceId) :
    h.Binds decl frame receiver (h.bindMethod method receiver).2 := by
  have hfunction : h.function method = ⟨decl, frame⟩ := by rw [function, hm]; rfl
  have hthis : (h.frames.addChild frame).2.get? h.frames.size =
      some ⟨[], some frame, some (h.frames.rootOf frame)⟩ := by
    rw [Frames.get?_addChild, if_pos rfl]
  refine ⟨?_, ?_, fun f hf => ?_, rfl, rfl⟩
  · simp [bindMethod, hfunction, addFunction, addFrame, bind]
    rfl
  · simp only [bindMethod, hfunction, addFunction, addFrame, bind]
    exact Frames.get?_bind_self hthis
  · simp only [bindMethod, hfunction, addFunction, addFrame, bind]
    exact (Frames.get?_bind_ne hf).trans (by rw [Frames.get?_addChild, if_neg hf])

/-- The methods and the class object that a declaration makes. -/
def makeClass (h : Heap) (frame : FrameId) (name : String) (methods : List (FunDecl Stmt)) :
    ClassId × Heap :=
  let made := h.addMethods frame methods []
  made.2.addClass ⟨name, made.1⟩

section
variable (h : Heap) (frame : FrameId) (name : String) (methods : List (FunDecl Stmt))

theorem addMethods_classes : (h.addMethods frame methods []).2.classes = h.classes :=
  (congrArg Heap.classes (h.addMethods_eq_functions frame methods []) :)

theorem makeClass_fst : (h.makeClass frame name methods).1 = h.classes.size :=
  congrArg Array.size (h.addMethods_classes frame methods)

theorem makeClass_frames : (h.makeClass frame name methods).2.frames = h.frames :=
  (congrArg Heap.frames (h.addMethods_eq_functions frame methods []) :)

theorem makeClass_classes : (h.makeClass frame name methods).2.classes =
    h.classes.push ⟨name, (h.addMethods frame methods []).1⟩ := by
  rw [makeClass, addClass, addMethods_classes]

theorem lt_makeClass : h.classes.size < (h.makeClass frame name methods).2.classes.size := by
  rw [makeClass_classes, Array.size_push]
  exact Nat.lt_succ_self _

theorem makeClass_declares :
    (h.makeClass frame name methods).2.Declares h.classes.size methods frame := by
  have hclass : (h.makeClass frame name methods).2.classObject h.classes.size =
      ⟨name, (h.addMethods frame methods []).1⟩ := by
    simp [classObject, makeClass_classes]
  rw [Declares, hclass]
  exact tables_addMethods methods (tables_nil h frame)

end

/-- A new function differs from every value there is. -/
theorem Has.function_ne {w : Value} (hw : h.Has w) :
    Value.equal (.function h.functions.size) w = false ∧
      Value.equal w (.function h.functions.size) = false := by
  cases w with
  | function id =>
    have hlt : id < h.functions.size := hw (.function id) List.mem_cons_self
    simp [Value.equal, Nat.ne_of_lt hlt, Nat.ne_of_gt hlt]
  | _ => exact ⟨rfl, rfl⟩

/-- A new instance differs from every value there is. -/
theorem Has.object_ne {w : Value} (hw : h.Has w) :
    Value.equal (.object h.instances.size) w = false ∧
      Value.equal w (.object h.instances.size) = false := by
  cases w with
  | object id =>
    have hlt : id < h.instances.size := hw (.object id) List.mem_cons_self
    simp [Value.equal, Nat.ne_of_lt hlt, Nat.ne_of_gt hlt]
  | _ => exact ⟨rfl, rfl⟩

end Heap

namespace Machine

/-- The answer to a read of a property: the value that the field has, or else a new function made of
the method, unlike any value before, or else a fault. -/
def ReadsAs (m : Machine) (field : Option Value) (method : Option (FunDecl Stmt)) (frame : FrameId)
    (id : InstanceId) (name : String) (line : Nat) (answer : Answer Machine Value) : Prop :=
  match field, method with
  | some v, _ => answer = .done v m
  | none, some decl => ∃ h, m.heap.Binds decl frame id h ∧
      answer = .done (.function m.heap.functions.size) { m with heap := h } ∧
      ∀ w, m.heap.Has w → Value.equal (.function m.heap.functions.size) w = false ∧
        Value.equal w (.function m.heap.functions.size) = false
  | none, none => answer = .failed ⟨line, .runtime (.undefinedProperty name)⟩ m

theorem property_reads {m : Machine} {id : InstanceId} {methods : List (FunDecl Stmt)}
    {frame : FrameId} (hd : m.heap.Declares (m.heap.object id).classId methods frame)
    (name : String) (line : Nat) :
    m.ReadsAs ((m.heap.object id).fields.find? name) (lastNamed methods name) frame id name line
      (property id name line m) := by
  have hname := hd name
  unfold property
  rw [bind_apply]
  simp only [inspect, Heap.property?, Heap.classOf]
  cases (m.heap.object id).fields.find? name with
  | some v => rfl
  | none =>
    cases hmethod : (m.heap.classObject (m.heap.object id).classId).methods.find? name with
    | none =>
      rw [hmethod] at hname
      rw [Option.map_eq_none_iff.1 hname.symm]
      rfl
    | some method =>
      rw [hmethod] at hname
      obtain ⟨decl, hlast, hdecl⟩ := Option.map_eq_some_iff.1 hname.symm
      rw [hlast]
      exact ⟨_, Heap.bindMethod_binds hdecl.symm id, rfl, fun w => Heap.Has.function_ne⟩

end Machine

/-! What stays. -/

/-- Between two heaps the fields change by what is written, and nothing else does: instances stay of
their classes, and classes have the methods that they had. -/
structure Heap.Keeps (h : Heap) (writes : List FieldWrite) (h' : Heap) : Prop where
  fields (id : InstanceId) (name : String) : (h'.object id).fields.find? name =
    (lastWritten writes id name).or ((h.object id).fields.find? name)
  classId {id : InstanceId} : id < h.instances.size →
    id < h'.instances.size ∧ (h'.object id).classId = (h.object id).classId
  declares {c : ClassId} {methods : List (FunDecl Stmt)} {frame : FrameId} :
    c < h.classes.size → h.Declares c methods frame → h'.Declares c methods frame

theorem Heap.Edited.keeps {h h' : Heap} {ws : List FieldWrite} (he : h.Edited ws h') :
    h.Keeps ws h' := by
  obtain ⟨assigned, hr⟩ := he.retains
  exact ⟨he.find?_fields, hr.classId, hr.declares⟩

namespace Machine

/-- The log of something that is run on the machine. -/
inductive Logs (m : Machine) : List Moment → Prop
  | evaluate (fuel : Nat) (e : Expr) : Logs m (Logging.instrument.evaluate fuel e m).1
  | execute (fuel : Nat) (s : Stmt) : Logs m (Logging.instrument.execute fuel s m).1
  | call (fuel : Nat) (c : Callable) (vs : List Value) (line : Nat) :
    Logs m (Logging.instrument.call fuel c vs line m).1
  | session (fuel : Nat) (sources : List String) : Logs m (m.momentsDuring fuel sources)

theorem Logs.passes {m : Machine} {moments : List Moment} (h : m.Logs moments) :
    m.heap.Passes moments := by
  cases h with
  | evaluate fuel e => exact ((Logging.Accounts.composes.evaluations fuel).evaluate e m).1
  | execute fuel s => exact ((Logging.Accounts.composes.evaluations fuel).execute s m).1
  | call fuel c vs line =>
    exact ((Logging.Accounts.composes.evaluations fuel).call c vs line m).1
  | session fuel sources => exact passes_momentsDuring sources

end Machine

/-! Classes as they are declared and called. -/

namespace Logging

theorem Accounts.edited {x : Logging α} {y : Action Machine α} (hx : x.Accounts)
    (hy : ∀ m, (x m).2 = y m) {m m' : Machine} {a : α} (h : y m = .done a m') :
    m.heap.Edited (writesOf (x m).1) m'.heap := by
  have hlast := (hx m).2 m'
  rw [hy, h] at hlast
  rw [hlast rfl]
  exact (hx m).1.edited

end Logging

namespace Machine

variable {m m' : Machine} {fuel : Nat}

/-- A class that is called gives its next instance, whatever its initializer does. -/
theorem done_of_call {c : ClassId} {vs : List Value} {line : Nat} {v : Value}
    (h : Lox.call fuel (.classObject c) vs line m = .done v m') :
    v = .object m.heap.instances.size ∧ ∃ ws, (m.heap.addInstance c).2.Edited ws m'.heap := by
  cases fuel with
  | zero => cases h
  | succ fuel =>
    rw [Lox.call, asCall_apply] at h
    split at h
    · cases h
    obtain ⟨m₁, hbody, rfl⟩ := Answer.onState_eq_done.1 h
    obtain ⟨receiver, m₂, hmade, hbody⟩ := bind_eq_done.1 hbody
    cases hmade
    obtain ⟨method?, m₃, hlook, hbody⟩ := bind_eq_done.1 hbody
    obtain rfl := (Answer.done.inj hlook).2
    cases method? with
    | none =>
      cases hbody
      exact ⟨rfl, [], .refl _⟩
    | some method =>
      obtain ⟨bound, m₄, hbound, hbody⟩ := bind_eq_done.1 hbody
      cases hbound
      obtain ⟨f, m₅, hf, hbody⟩ := bind_eq_done.1 hbody
      cases hf
      obtain ⟨result, m₆, hinit, hbody⟩ := bind_eq_done.1 hbody
      cases hbody
      have hruns := Logging.Accounts.edited
        ((Logging.Accounts.composes.evaluations fuel).callFunction _ vs line)
        ((Logging.instrument_matches.evaluations fuel).callFunction _ vs line) hinit
      exact ⟨rfl, _, (Heap.Edited.bindMethod _ method _).trans hruns⟩

/-- Executing a declaration binds its name to nil, makes the class and assigns it. -/
theorem execute_classDecl_eq_done {name : String} {methods : List (FunDecl Stmt)} {line : Nat}
    {signal : Signal} (h : Lox.execute fuel (.classDecl name methods line) m = .done signal m') :
    let made := (m.heap.bind m.current name .nil).makeClass m.current name methods
    assignHere name (.classObject made.1) { m with heap := made.2 } = .done () m' := by
  cases fuel with
  | zero => cases h
  | succ fuel =>
    obtain ⟨⟨⟩, m₁, hdefine, h⟩ := bind_eq_done.1 h
    obtain ⟨frame, m₂, hlook, h⟩ := bind_eq_done.1 h
    cases hlook
    obtain ⟨table, m₃, hmethods, h⟩ := bind_eq_done.1 h
    obtain ⟨id, m₄, hclass, h⟩ := bind_eq_done.1 h
    obtain ⟨⟨⟩, m₅, hassign, h⟩ := bind_eq_done.1 h
    cases h
    obtain rfl : m.bind m.current name .nil = m₁ := by
      unfold Machine.define at hdefine
      split at hdefine
      · cases hdefine
        rfl
      · cases hdefine
    cases hmethods
    cases hclass
    exact hassign

/-- A class that is declared has the methods of the declaration. -/
theorem declares_of_classDecl {name : String} {methods : List (FunDecl Stmt)} {line : Nat}
    {signal : Signal}
    (h : Lox.execute fuel (.classDecl name methods line) m = .done signal m') :
    m.heap.classes.size < m'.heap.classes.size ∧
      m'.heap.Declares m.heap.classes.size methods m.current ∧
      (m.current < m.heap.frames.size →
        m'.heap.frames.find? m.current name = some (.classObject m.heap.classes.size)) := by
  let named := m.heap.bind m.current name .nil
  let made := named.makeClass m.current name methods
  have hassign : assignHere name (.classObject made.1) { m with heap := made.2 } = .done () m' :=
    execute_classDecl_eq_done h
  have hid : made.1 = m.heap.classes.size := named.makeClass_fst m.current name methods
  have hlt : m.heap.classes.size < made.2.classes.size :=
    named.lt_makeClass m.current name methods
  have hnew : made.2.Declares m.heap.classes.size methods m.current :=
    named.makeClass_declares m.current name methods
  have hframes : made.2.frames = named.frames := named.makeClass_frames m.current name methods
  rw [← hid] at hnew hlt ⊢
  unfold Machine.assignHere at hassign
  split at hassign
  next =>
    cases hassign
    have hkept :=
      (Heap.Retains.bind made.2 m.current name (.classObject made.1)).declares hlt hnew
    refine ⟨hlt, hkept, fun hcurrent => Frames.find?_bind_self ?_⟩
    change m.current < made.2.frames.size
    rw [hframes]
    exact (Frames.Extends.bind _ _ _ _).lt hcurrent
  next hfound =>
    cases hassign
    refine ⟨hlt, hnew, fun hcurrent => absurd ?_ hfound⟩
    change (made.2.frames.find? m.current name).isSome = true
    rw [hframes]
    exact (congrArg Option.isSome (Frames.find?_bind_self hcurrent)).trans rfl

end Machine

/-! Fields in expressions. -/

namespace Logging

variable {m m₁ m₂ : Machine} {fuel : Nat} {object value : Expr} {moments moments' : List Moment}
  {id : InstanceId} {v : Value}

theorem heap_of_evaluate {a : Value}
    (h : instrument.evaluate fuel object m = (moments, .done a m₁)) :
    m₁.heap = m.heap.after moments := by
  have hlast := ((Accounts.composes.evaluations fuel).evaluate object m).2 m₁
  rw [h] at hlast
  exact hlast rfl

theorem evaluate_get (h : instrument.evaluate fuel object m = (moments, .done (.object id) m₁))
    (name : String) (line : Nat) :
    Lox.evaluate (fuel + 1) (.get object name line) m = Machine.property id name line m₁ := by
  have hobject := (instrument_matches.evaluations fuel).evaluate object m
  rw [h] at hobject
  rw [Lox.evaluate, Action.bind_apply, ← hobject]

theorem writesOf_set (h : instrument.evaluate fuel object m = (moments, .done (.object id) m₁))
    (h' : instrument.evaluate fuel value m₁ = (moments', .done v m₂))
    (hid : id < m₂.heap.instances.size) (name : String) (line : Nat) :
    writesOf (instrument.evaluate (fuel + 1) (.set object name value line) m).1 =
      writesOf moments ++ writesOf moments' ++ [⟨id, name, v⟩] := by
  have hmoments : (instrument.evaluate (fuel + 1) (.set object name value line) m).1 =
      moments ++ (moments' ++ [⟨(Machine.setField id name v).fieldWrites m₂,
        m₂.heap.setField id name v⟩]) := by
    rw [Instrument.evaluate, bind_apply, h]
    simp only [bind_apply, h']
    rfl
  rw [hmoments, Action.fieldWrites_setField, if_pos hid]
  simp [writesOf]

end Logging

theorem allDeclared_start (limit : Option Nat) (sink : Sink) (clock : Nat → Float) :
    (Machine.start limit sink clock).heap.AllDeclared :=
  fun _ hc => absurd hc (Nat.not_lt_zero _)

theorem fields_start (limit : Option Nat) (sink : Sink) (clock : Nat → Float) (id : InstanceId) :
    ((Machine.start limit sink clock).heap.object id).fields = [] := rfl

namespace Machine

/-- A read at a moment of a session gives what was written last. -/
theorem session_reads {limit : Option Nat} {sink : Sink} {clock : Nat → Float} {fuel : Nat}
    {sources : List String} {before rest : List Moment}
    (hlog : (start limit sink clock).momentsDuring fuel sources = before ++ rest) {m : Machine}
    (hm : m.heap = (start limit sink clock).heap.after before) (id : InstanceId) (name : String)
    (line : Nat) :
    ∃ methods frame, m.heap.Declares (m.heap.object id).classId methods frame ∧
      m.ReadsAs (lastWritten (writesOf before) id name) (lastNamed methods name) frame id name line
        (property id name line m) := by
  have hpasses := (Logs.session fuel sources : (start limit sink clock).Logs _).passes
  rw [hlog, Heap.passes_append] at hpasses
  have hedited := hpasses.1.edited
  obtain ⟨methods, frame, hdeclares⟩ :=
    (hedited.allDeclared (allDeclared_start limit sink clock)).exists (m.heap.object id).classId
  rw [← hm] at hdeclares hedited
  have hfield := hedited.find?_fields id name
  rw [fields_start, Bindings.find?_nil, Option.or_none] at hfield
  exact ⟨methods, frame, hdeclares, hfield ▸ property_reads hdeclares name line⟩

/-- A class that is called makes an instance with the fields that are written on the way. -/
theorem call_makes {m m' : Machine} {fuel : Nat} {c : ClassId} {vs : List Value} {line : Nat}
    {v : Value} (h : Lox.call fuel (.classObject c) vs line m = .done v m') :
    let id := m.heap.instances.size
    v = .object id ∧ id < m'.heap.instances.size ∧ (m'.heap.object id).classId = c ∧
      (∀ w, m.heap.Has w → Value.equal v w = false ∧ Value.equal w v = false) ∧
      ∀ name, (m'.heap.object id).fields.find? name =
        lastWritten (writesOf (Logging.instrument.call fuel (.classObject c) vs line m).1) id
          name := by
  obtain ⟨rfl, ws, hedited⟩ := done_of_call h
  have hmade : (m.heap.addInstance c).2.object m.heap.instances.size = ⟨c, []⟩ := by
    simp [Heap.object, Heap.addInstance]
  have hnone : m.heap.object m.heap.instances.size = ⟨0, []⟩ := by
    rw [Heap.object, Array.getElem?_eq_none (Nat.le_refl _)]
    rfl
  have hlt : m.heap.instances.size < (m.heap.addInstance c).2.instances.size := by
    simp [Heap.addInstance]
  obtain ⟨hexists, hclass⟩ := hedited.keeps.classId hlt
  rw [hmade] at hclass
  refine ⟨rfl, hexists, hclass, fun w => Heap.Has.object_ne, fun name => ?_⟩
  have hlogged := Logging.Accounts.edited
    ((Logging.Accounts.composes.evaluations fuel).call (.classObject c) vs line)
    ((Logging.instrument_matches.evaluations fuel).call (.classObject c) vs line) h
  rw [hlogged.find?_fields, hnone, Bindings.find?_nil, Option.or_none]

end Machine

/-- At every moment of a session, and after it, a read of a property gives the value that was last
written to it on that instance, a method of that name or not; without a write a new function, unlike
every value there is, made of the last method of that name in the declaration of the class, with the
instance as its `this`; or else a fault. What is logged are the writes that are executed, and reads
take place at the moments that are logged. On any machine, instances keep their classes, classes
their methods, and fields change by what is written to them alone. A class has the methods of its
declaration, and a call of it that succeeds gives an instance of it that is new, with the fields
that were written during the call. -/
theorem object_model :
    (∀ limit sink clock fuel sources before rest,
      (Machine.start limit sink clock).momentsDuring fuel sources = before ++ rest →
        ∀ (m : Machine) id name line,
          m.heap = (Machine.start limit sink clock).heap.after before →
          ∃ methods frame, m.heap.Declares (m.heap.object id).classId methods frame ∧
            m.ReadsAs (lastWritten (writesOf before) id name) (lastNamed methods name) frame id name
              line (Machine.property id name line m)) ∧
    (∀ (m : Machine) fuel sources entries m', m.session fuel sources = some (entries, m') →
      m'.heap = m.heap.after (m.momentsDuring fuel sources)) ∧
    (∀ (m m₁ : Machine) fuel object moments id name line,
      Logging.instrument.evaluate fuel object m = (moments, .done (.object id) m₁) →
        evaluate (fuel + 1) (.get object name line) m = Machine.property id name line m₁ ∧
          m₁.heap = m.heap.after moments) ∧
    (∀ (m m₁ m₂ : Machine) fuel object value moments moments' id v name line,
      Logging.instrument.evaluate fuel object m = (moments, .done (.object id) m₁) →
      Logging.instrument.evaluate fuel value m₁ = (moments', .done v m₂) →
      id < m₂.heap.instances.size →
        writesOf (Logging.instrument.evaluate (fuel + 1) (.set object name value line) m).1 =
          writesOf moments ++ writesOf moments' ++ [⟨id, name, v⟩]) ∧
    (∀ (m : Machine) before between rest, m.Logs (before ++ (between ++ rest)) →
      (m.heap.after before).Keeps (writesOf between) ((m.heap.after before).after between)) ∧
    (∀ (m m' : Machine) fuel name methods line signal,
      execute fuel (.classDecl name methods line) m = .done signal m' →
        m.heap.classes.size < m'.heap.classes.size ∧
          m'.heap.Declares m.heap.classes.size methods m.current ∧
          (m.current < m.heap.frames.size →
            m'.heap.frames.find? m.current name = some (.classObject m.heap.classes.size))) ∧
    ∀ (m m' : Machine) fuel c vs line v, call fuel (.classObject c) vs line m = .done v m' →
      let id := m.heap.instances.size
      v = .object id ∧ id < m'.heap.instances.size ∧ (m'.heap.object id).classId = c ∧
        (∀ w, m.heap.Has w → Value.equal v w = false ∧ Value.equal w v = false) ∧
        ∀ name, (m'.heap.object id).fields.find? name =
          lastWritten (writesOf (Logging.instrument.call fuel (.classObject c) vs line m).1) id
            name := by
  refine ⟨fun limit sink clock fuel sources before rest hlog m id name line hm => ?_,
    fun m fuel sources entries m' => Machine.after_momentsDuring,
    fun m m₁ fuel object moments id name line h => ⟨?_, Logging.heap_of_evaluate h⟩,
    fun m m₁ m₂ fuel object value moments moments' id v name line h h' hid => ?_,
    fun m before between rest h => ?_,
    fun m m' fuel name methods line signal => Machine.declares_of_classDecl,
    fun m m' fuel c vs line v => Machine.call_makes⟩
  · exact Machine.session_reads hlog hm id name line
  · exact Logging.evaluate_get h name line
  · exact Logging.writesOf_set h h' hid name line
  · exact (Heap.passes_append.1 (Heap.passes_append.1 h.passes).2).1.edited.keeps

/-- An instance under two names, with a field that has the name of two methods. -/
def shadowedSource : String :=
  "class A \x7b init() \x7b this.x = nil; \x7d m() \x7b return this; \x7d " ++
    "m() \x7b return nil; \x7d \x7d var a = A(); var b = a; b.m = true;"

/-- A machine with an instance that has a name. -/
def withInstance : Machine :=
  let m := Machine.start none .unlimited fun _ => 0
  let h := ((m.heap.addClass ⟨"A", []⟩).2.addInstance 0).2
  { m with heap := h.bind m.globals "a" (.object 0) }

def namedInstance : Expr := .read ⟨"a", .global⟩ 1

def fieldAssignment : Expr := .set namedInstance "x" (.literal (.bool true) 1) 1

theorem object_model_shadowed :
    let start := Machine.start none .unlimited fun _ => 0
    let moments := (Logging.instrument.evaluate 2 fieldAssignment withInstance).1
    (∃ entries last, start.session 24 [shadowedSource] = some (entries, last) ∧
      Machine.property 0 "m" 1 last = .done (.bool true) last ∧
      ∃ v m', call 16 (.classObject 0) [] 1 last = .done v m' ∧ v = .object 1 ∧
        (m'.heap.object 1).classId = 0) ∧
    (∃ m', execute 4 (.classDecl "A" [] 1) start = .done .normal m' ∧
      m'.heap.Declares 0 [] start.globals ∧
      m'.heap.frames.find? start.globals "A" = some (.classObject 0)) ∧
    evaluate 2 (.get namedInstance "x" 1) withInstance =
      Machine.property 0 "x" 1 withInstance ∧
    writesOf moments = [⟨0, "x", .bool true⟩] ∧
    withInstance.heap.Keeps [⟨0, "x", .bool true⟩] (withInstance.heap.after moments) := by
  intro start moments
  obtain ⟨hreads, hends, hgets, hsets, hkeeps, hdeclares, hcalls⟩ := object_model
  refine ⟨?_, ?_, ?_⟩
  · have hruns : (start.session 24 [shadowedSource]).map (fun r => (r.2.heap.instances.size,
        (call 16 (.classObject 0) [] 1 r.2).result?.isSome)) = some (1, true) := by cbv
    have hwrites : writesOf (start.momentsDuring 24 [shadowedSource]) =
        [⟨0, "x", .nil⟩, ⟨0, "m", .bool true⟩] := by cbv
    obtain ⟨⟨entries, last⟩, hsession, hshown⟩ := Option.map_eq_some_iff.1 hruns
    simp only [Prod.mk.injEq] at hshown
    obtain ⟨hsize, hcalled⟩ := hshown
    obtain ⟨v, hv⟩ := Option.isSome_iff_exists.1 hcalled
    obtain ⟨m', hcall⟩ := Answer.result?_eq_some.1 hv
    obtain ⟨methods, frame, -, hread⟩ := hreads none .unlimited (fun _ => 0) 24 [shadowedSource]
      _ [] (List.append_nil _).symm last 0 "m" 1 (hends start 24 _ entries last hsession)
    rw [hwrites] at hread
    obtain ⟨hobject, -, hclass, -⟩ := hcalls last m' 16 0 [] 1 v hcall
    rw [hsize] at hobject hclass
    exact ⟨entries, last, hsession, hread, v, m', hcall, hobject, hclass⟩
  · obtain ⟨m', hclass⟩ := Answer.result?_eq_some.1
      (show (execute 4 (.classDecl "A" [] 1) start).result? = some .normal by cbv)
    obtain ⟨-, hmethods, hname⟩ := hdeclares start m' 4 "A" [] 1 .normal hclass
    exact ⟨m', hclass, hmethods, hname Nat.zero_lt_one⟩
  · have hnamed : Logging.instrument.evaluate 1 namedInstance withInstance =
        ([⟨[], withInstance.heap⟩], .done (.object 0) withInstance) := by cbv
    have hvalue : Logging.instrument.evaluate 1 (.literal (.bool true) 1) withInstance =
        ([], .done (.bool true) withInstance) := rfl
    have hwrites : writesOf moments = [⟨0, "x", .bool true⟩] :=
      hsets withInstance withInstance withInstance 1 _ _ _ _ 0 _ "x" 1 hnamed hvalue
        Nat.zero_lt_one
    have hlogs : withInstance.Logs ([] ++ (moments ++ [])) := by
      rw [List.nil_append, List.append_nil]
      exact .evaluate 2 fieldAssignment
    have hkept := hkeeps withInstance [] moments [] hlogs
    rw [hwrites] at hkept
    exact ⟨(hgets withInstance withInstance 1 namedInstance _ 0 "x" 1 hnamed).1, hwrites, hkept⟩

end Lox
