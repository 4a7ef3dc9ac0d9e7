import Lox.Evaluation

/-! The single steps of an evaluation. Whatever it does to a machine is made of these, of sequences,
of calls and of changes of the current frame. Most of them see nothing but the heap. -/
namespace Lox

variable {α β : Type}

/-- The actions that are not made of others. -/
inductive Step : {α : Type} → Action Machine α → Prop
  | fail {α : Type} (line : Nat) (f : Fault) : Step (Action.fail line f : Action Machine α)
  | lift (line : Nat) (r : Except RuntimeFault Value) : Step (Action.lift line r)
  | finish (op : BinaryOp) (v w : Value) (line : Nat) : Step (op.finish v w line)
  | look {α : Type} (f : Heap → FrameId → α) : Step (Action.inspect fun m => f m.heap m.current)
  | read (o : Occurrence) (line : Nat) : Step (Machine.read o line)
  | write (o : Occurrence) (v : Value) (line : Nat) : Step (Machine.write o v line)
  | property (id : InstanceId) (name : String) (line : Nat) : Step (Machine.property id name line)
  | setField (id : InstanceId) (name : String) (v : Value) : Step (Machine.setField id name v)
  | define (name : String) (v : Value) (line : Nat) : Step (Machine.define name v line)
  | assignHere (name : String) (v : Value) : Step (Machine.assignHere name v)
  | defineAll (frame : FrameId) (entries : List (String × Value)) :
    Step (Machine.defineAll frame entries)
  | addFrame (outer : FrameId) : Step (Machine.allocate (·.addFrame outer))
  | addFunction (f : Function) : Step (Machine.allocate (·.addFunction f))
  | addMethods (frame : FrameId) (methods : List (FunDecl Stmt)) (table : Bindings FunctionId) :
    Step (Machine.allocate (·.addMethods frame methods table))
  | addClass (c : ClassObject) : Step (Machine.allocate (·.addClass c))
  | addInstance (id : ClassId) : Step (Machine.allocate (·.addInstance id))
  | bindMethod (method : FunctionId) (receiver : InstanceId) :
    Step (Machine.allocate (·.bindMethod method receiver))
  | print (text : String) : Step (Machine.print text)
  | tick : Step Machine.tick

/-- The state that an answer leaves, unless fuel ran out. -/
def Answer.state? {σ : Type} : Answer σ α → Option σ
  | .done _ s => some s
  | .failed _ s => some s
  | .outOfFuel => none

/-- The answer with its state changed. -/
def Answer.onState {σ τ : Type} (g : σ → τ) : Answer σ α → Answer τ α
  | .done a s => .done a (g s)
  | .failed d s => .failed d (g s)
  | .outOfFuel => .outOfFuel

theorem Answer.mem_state?_onState {σ τ : Type} {g : σ → τ} {r : Answer σ α} {t : τ} :
    t ∈ (r.onState g).state? ↔ ∃ s ∈ r.state?, g s = t := by
  cases r <;> simp [Answer.state?, Answer.onState]

namespace Machine

theorem inFrame_apply (frame : FrameId) (x : Action Machine α) (m : Machine) :
    inFrame frame x m =
      (x { m with current := frame }).onState fun m' => { m' with current := m.current } := by
  unfold inFrame
  cases x { m with current := frame } <;> rfl

theorem asCall_apply (line : Nat) (x : Action Machine α) (m : Machine) :
    asCall line x m =
      if m.atLimit then .failed ⟨line, .runtime .callsTooDeep⟩ m
      else (x { m with toWorld := m.enterCall }).onState fun m' =>
        { m' with toWorld := m'.leaveCall } := by
  unfold asCall
  cases m.atLimit
  · simp only [Bool.false_eq_true, if_false]
    cases x { m with toWorld := m.enterCall } <;> rfl
  · rfl

end Machine

/-- An answer that tells a result or a failure. -/
def Answer.ofExcept (r : Except Diagnostic α) (m : Machine) : Answer Machine α :=
  match r with
  | .ok a => .done a m
  | .error d => .failed d m

/-- The action sees the heap and the current frame, and changes nothing but the heap. -/
def Action.OnHeap (x : Action Machine α) : Prop :=
  ∀ (h : Heap) (current : FrameId), ∃ r h', ∀ m : Machine, m.heap = h → m.current = current →
    x m = .ofExcept r { m with heap := h' }

namespace Action.OnHeap

theorem fail (line : Nat) (f : Fault) : (Action.fail line f : Action Machine α).OnHeap := by
  intro h current
  refine ⟨.error ⟨line, f⟩, h, ?_⟩
  rintro m rfl -
  rfl

theorem pure (a : α) : (Pure.pure a : Action Machine α).OnHeap := by
  intro h current
  refine ⟨.ok a, h, ?_⟩
  rintro m rfl -
  rfl

theorem look (f : Heap → FrameId → α) :
    (Action.inspect fun m : Machine => f m.heap m.current).OnHeap := by
  intro h current
  refine ⟨.ok (f h current), h, ?_⟩
  rintro m rfl rfl
  rfl

theorem allocate (f : Heap → α × Heap) : (Machine.allocate f).OnHeap := by
  intro h current
  refine ⟨.ok (f h).1, (f h).2, ?_⟩
  rintro m rfl -
  rfl

theorem setField (id : InstanceId) (name : String) (v : Value) :
    (Machine.setField id name v).OnHeap := by
  intro h current
  refine ⟨.ok (), h.setField id name v, ?_⟩
  rintro m rfl -
  rfl

theorem bind {x : Action Machine α} {f : α → Action Machine β} (hx : x.OnHeap)
    (hf : ∀ a, (f a).OnHeap) : (x >>= f).OnHeap := by
  intro h current
  obtain ⟨r, h', hr⟩ := hx h current
  cases r with
  | error d =>
    refine ⟨.error d, h', fun m hh hc => ?_⟩
    rw [bind_apply, hr m hh hc]
    rfl
  | ok a =>
    obtain ⟨r', h'', hr'⟩ := hf a h' current
    refine ⟨r', h'', fun m hh hc => ?_⟩
    rw [bind_apply, hr m hh hc]
    exact hr' _ rfl hc

theorem lift (line : Nat) (r : Except RuntimeFault α) :
    (Action.lift line r : Action Machine α).OnHeap := by
  cases r with
  | ok a => exact .pure a
  | error f => exact .fail line _

theorem finish (op : BinaryOp) (v w : Value) (line : Nat) :
    (op.finish v w line : Action Machine Value).OnHeap := by
  cases op with
  | strict op => exact .lift line _
  | or | and => exact .pure w

theorem read (o : Occurrence) (line : Nat) : (Machine.read o line).OnHeap := by
  intro h current
  cases hr : h.frames.read current o.depth o.name with
  | ok v =>
    refine ⟨.ok v, h, ?_⟩
    rintro m rfl rfl
    simp only [Machine.read, hr]
    rfl
  | error f =>
    refine ⟨.error ⟨line, f⟩, h, ?_⟩
    rintro m rfl rfl
    simp only [Machine.read, hr]
    rfl

theorem write (o : Occurrence) (v : Value) (line : Nat) : (Machine.write o v line).OnHeap := by
  intro h current
  cases hr : h.frames.holder current o.depth o.name with
  | ok frame =>
    refine ⟨.ok (), h.bind frame o.name v, ?_⟩
    rintro m rfl rfl
    simp only [Machine.write, hr]
    rfl
  | error f =>
    refine ⟨.error ⟨line, f⟩, h, ?_⟩
    rintro m rfl rfl
    simp only [Machine.write, hr]
    rfl

theorem property (id : InstanceId) (name : String) (line : Nat) :
    (Machine.property id name line).OnHeap := by
  refine .bind (.look fun h _ => h.property? id name) fun found => ?_
  cases found with
  | none => exact .fail line _
  | some found =>
    cases found with
    | field v => exact .pure v
    | method method => exact .bind (.allocate _) fun bound => .pure _

theorem define (name : String) (v : Value) (line : Nat) : (Machine.define name v line).OnHeap := by
  intro h current
  by_cases ha : h.frames.accepts current name
  · refine ⟨.ok (), h.bind current name v, ?_⟩
    rintro m rfl rfl
    simp only [Machine.define, ha, if_true]
    rfl
  · refine ⟨.error ⟨line, .runtime (.redeclared name)⟩, h, ?_⟩
    rintro m rfl rfl
    simp only [Machine.define, ha]
    rfl

theorem assignHere (name : String) (v : Value) : (Machine.assignHere name v).OnHeap := by
  intro h current
  by_cases hf : (h.frames.find? current name).isSome
  · refine ⟨.ok (), h.bind current name v, ?_⟩
    rintro m rfl rfl
    simp only [Machine.assignHere, hf, if_true]
    rfl
  · refine ⟨.ok (), h, ?_⟩
    rintro m rfl rfl
    simp only [Machine.assignHere, hf]
    rfl

theorem defineAll (frame : FrameId) (entries : List (String × Value)) :
    (Machine.defineAll frame entries).OnHeap := by
  induction entries with
  | nil => exact .pure ()
  | cons entry rest ih =>
    intro h current
    by_cases ha : h.frames.accepts frame entry.1
    · obtain ⟨r, h', hr⟩ := ih (h.bind frame entry.1 entry.2) current
      refine ⟨r, h', ?_⟩
      rintro m rfl hc
      simp only [Machine.defineAll, ha, if_true]
      exact hr (m.bind frame entry.1 entry.2) rfl hc
    · obtain ⟨r, h', hr⟩ := ih h current
      refine ⟨r, h', ?_⟩
      rintro m rfl hc
      simp only [Machine.defineAll, ha]
      exact hr m rfl hc

end Action.OnHeap

/-- Beside the steps on the heap there are printing and the clock. -/
theorem Step.elim {P : ⦃α : Type⦄ → Action Machine α → Prop}
    (onHeap : ∀ ⦃α : Type⦄ ⦃x : Action Machine α⦄, x.OnHeap → P x)
    (print : ∀ text, P (Machine.print text)) (tick : P Machine.tick) {x : Action Machine α}
    (h : Step x) : P x := by
  cases h with
  | fail line f => exact onHeap (.fail line f)
  | lift line r => exact onHeap (.lift line r)
  | finish op v w line => exact onHeap (.finish op v w line)
  | look f => exact onHeap (.look f)
  | read o line => exact onHeap (.read o line)
  | write o v line => exact onHeap (.write o v line)
  | property id name line => exact onHeap (.property id name line)
  | setField id name v => exact onHeap (.setField id name v)
  | define name v line => exact onHeap (.define name v line)
  | assignHere name v => exact onHeap (.assignHere name v)
  | defineAll frame entries => exact onHeap (.defineAll frame entries)
  | addFrame | addFunction | addMethods | addClass | addInstance | bindMethod =>
    exact onHeap (.allocate _)
  | print text => exact print text
  | tick => exact tick

end Lox
