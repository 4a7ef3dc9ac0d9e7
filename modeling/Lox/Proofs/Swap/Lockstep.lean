import Lox.Program
import Lox.Proofs.Reach.Confined
import Lox.Proofs.Swap.Renumbering

/-! Code that runs on two machines that are alike but for the numbers of functions and classes does
the same on both, and leaves them alike. -/
namespace Lox

open Region (whole allowsAll_nil allowsAll_singleton allowsAll_append)

variable {α β : Type}

structure Machine.Renumbered (r : Renumbering) (m m' : Machine) : Prop where
  world : m'.toWorld = m.toWorld
  globals : m'.globals = m.globals
  current : m'.current = m.current
  heap : m.heap.Renumbered r m'.heap

/-- Answers with the same end, whose results differ as `f` says. -/
inductive Answer.Renumbered (r : Renumbering) (f : α → α) :
    Answer Machine α → Answer Machine α → Prop
  | done {a b : α} {m m' : Machine} : b = f a → m.Renumbered r m' →
    Renumbered r f (.done a m) (.done b m')
  | failed {d : Diagnostic} {m m' : Machine} : m.Renumbered r m' →
    Renumbered r f (.failed d m) (.failed d m')
  | outOfFuel : Renumbered r f .outOfFuel .outOfFuel

/-- From machines that are alike, in the frame `current` and with the heap `h` or a later one, the
actions come to answers that are alike. Nothing that was never made comes into the heap: such a
place would not have the same number in both. -/
def Action.Renumbered (r : Renumbering) (h : Heap) (current : FrameId) (x x' : Action Machine α)
    (f : α → α) (places : α → List Place) : Prop :=
  ∀ m m' : Machine, m.current = current → h.GrowsTo m.heap → whole.Held m.heap →
    m.Renumbered r m' →
      (x m).Confined whole m.heap current places ∧ (x m).Renumbered r f (x' m')

namespace Action.Renumbered

variable {r : Renumbering} {h : Heap} {current frame : FrameId} {x x' : Action Machine α}
  {f : α → α} {f' : β → β} {places : α → List Place} {places' : β → List Place} {name : String}
  {v : Value} {line : Nat}

theorem intro (hconfined : x.Confined whole h current places)
    (halike : ∀ m m' : Machine, m.current = current → h.GrowsTo m.heap → m.Renumbered r m' →
      (x m).Renumbered r f (x' m')) :
    Renumbered r h current x x' f places :=
  fun m m' hm hg hh hr => ⟨hconfined m hm hg hh, halike m m' hm hg hr⟩

theorem pure {a b : α} (hb : b = f a) (ha : whole.AllowsAll h (places a)) :
    Renumbered r h current (Pure.pure a) (Pure.pure b) f places :=
  fun _ _ hm hg hh hr => ⟨⟨hm, .refl hh, ha.mono hg⟩, .done hb hr⟩

theorem fuelSpent : Renumbered r h current (fuelSpent : Action Machine α) fuelSpent f places :=
  fun _ _ _ _ _ _ => ⟨trivial, .outOfFuel⟩

theorem fail (line : Nat) (fault : Fault) :
    Renumbered r h current (fail line fault : Action Machine α) (Action.fail line fault) f
      places :=
  fun _ _ hm _ hh hr => ⟨⟨hm, .refl hh⟩, .failed hr⟩

theorem bind {g g' : α → Action Machine β} (hx : Renumbered r h current x x' f places)
    (hgs : ∀ a h', h.GrowsTo h' → whole.AllowsAll h' (places a) →
      Renumbered r h' current (g a) (g' (f a)) f' places') :
    Renumbered r h current (x >>= g) (x' >>= g') f' places' := by
  intro m m' hm hg hh hr
  obtain ⟨hconfined, halike⟩ := hx m m' hm hg hh hr
  rw [bind_apply, bind_apply]
  generalize x m = answer, x' m' = answer' at hconfined halike
  cases halike with
  | done hb hr' =>
    obtain ⟨hm', hl, ha⟩ := hconfined
    obtain ⟨hconfined', halike'⟩ := hgs _ _ (hg.trans hl.grows) ha _ _ hm' (.refl _) hl.held hr'
    rw [hb]
    exact ⟨hconfined'.after hl, halike'⟩
  | failed hr' => exact ⟨hconfined, .failed hr'⟩
  | outOfFuel => exact ⟨trivial, .outOfFuel⟩

theorem inFrame (hx : Renumbered r h frame x x' f places) :
    Renumbered r h current (Machine.inFrame frame x) (Machine.inFrame frame x') f places := by
  intro m m' hm hg hh hr
  obtain ⟨hconfined, halike⟩ := hx { m with current := frame } { m' with current := frame } rfl hg
    hh { hr with current := rfl }
  rw [Machine.inFrame_apply, Machine.inFrame_apply]
  generalize x { m with current := frame } = answer, x' { m' with current := frame } = answer'
    at hconfined halike
  cases halike with
  | done hb hr' => exact ⟨⟨hm, hconfined.2⟩, .done hb { hr' with current := hr.current }⟩
  | failed hr' => exact ⟨⟨hm, hconfined.2⟩, .failed { hr' with current := hr.current }⟩
  | outOfFuel => exact ⟨trivial, .outOfFuel⟩

theorem asCall (hx : Renumbered r h current x x' f places) :
    Renumbered r h current (Machine.asCall line x) (Machine.asCall line x') f places := by
  intro m m' hm hg hh hr
  rw [Machine.asCall_apply, Machine.asCall_apply, hr.world]
  split
  · exact ⟨⟨hm, .refl hh⟩, .failed hr⟩
  · obtain ⟨hconfined, halike⟩ := hx { m with toWorld := m.enterCall }
      { m' with toWorld := m.enterCall } hm hg hh { hr with world := rfl }
    generalize x { m with toWorld := m.enterCall } = answer,
      x' { m' with toWorld := m.enterCall } = answer' at hconfined halike
    cases halike with
    | done hb hr' =>
      exact ⟨hconfined, .done hb { hr' with world := congrArg World.leaveCall hr'.world }⟩
    | failed hr' =>
      exact ⟨hconfined, .failed { hr' with world := congrArg World.leaveCall hr'.world }⟩
    | outOfFuel => exact ⟨trivial, .outOfFuel⟩

/-! The single steps. -/

theorem look (g g' : Heap → FrameId → α) (hg : ∀ h₁ h₂, h.GrowsTo h₁ → whole.Held h₁ →
      h₁.Renumbered r h₂ →
        g' h₂ current = f (g h₁ current) ∧ whole.AllowsAll h₁ (places (g h₁ current))) :
    Renumbered r h current (inspect fun m => g m.heap m.current)
      (inspect fun m => g' m.heap m.current) f places := by
  intro m m' hm hgrow hh hr
  obtain ⟨hb, ha⟩ := hg m.heap m'.heap hgrow hh hr.heap
  subst hm
  exact ⟨⟨rfl, .refl hh, ha⟩, .done (by simpa only [hr.current] using hb) hr⟩

/-- What is no place and shows no number is the same. -/
theorem inspect (g g' : Heap → FrameId → α) (hg : ∀ h₁ h₂, h.GrowsTo h₁ → whole.Held h₁ →
      h₁.Renumbered r h₂ → g' h₂ current = g h₁ current) :
    Renumbered r h current (inspect fun m => g m.heap m.current)
      (Action.inspect fun m => g' m.heap m.current) id fun _ => [] :=
  look g g' fun h₁ h₂ hgrow hh hr => ⟨hg h₁ h₂ hgrow hh hr, allowsAll_nil⟩

theorem allocate {g g' : Heap → α × Heap}
    (hconfined : (Machine.allocate g).Confined whole h current places)
    (hg : ∀ h₁ h₂, h₁.Renumbered r h₂ → (g' h₂).1 = f (g h₁).1 ∧ (g h₁).2.Renumbered r (g' h₂).2) :
    Renumbered r h current (Machine.allocate g) (Machine.allocate g') f places := by
  refine .intro hconfined fun m m' _ _ hr => ?_
  obtain ⟨hb, hheap⟩ := hg m.heap m'.heap hr.heap
  exact .done hb { hr with heap := hheap }

theorem lift {result : Except RuntimeFault Value} (hresult : IsOperation result) :
    Renumbered r h current (lift line result) (Action.lift line result) r.value Value.places := by
  refine .intro (.lift hresult) fun m m' hm hg hr => ?_
  cases result with
  | ok v => exact .done (r.value_of_isPlain hresult).symm hr
  | error fault => exact .failed hr

theorem finish (op : BinaryOp) (v : Value) {w : Value} (hw : whole.AllowsAll h w.places) :
    Renumbered r h current (op.finish v w line) (op.finish (r.value v) (r.value w) line) r.value
      Value.places := by
  cases op with
  | strict op =>
    simp only [BinaryOp.finish, r.strict_value]
    exact .lift (op.apply_isOperation v w)
  | or | and => exact .pure rfl hw

theorem read (o : Occurrence) (hc : whole.Allows h (.frame current)) :
    Renumbered r h current (Machine.read o line) (Machine.read o line) r.value Value.places := by
  refine .intro (.read o hc) fun m m' hm hg hr => ?_
  simp only [Machine.read, hr.current, hr.heap.frames.read]
  cases m.heap.frames.read m.current o.depth o.name with
  | ok v => exact .done rfl hr
  | error fault => exact .failed hr

theorem write (o : Occurrence) (hc : whole.Allows h (.frame current))
    (hv : whole.AllowsAll h v.places) :
    Renumbered r h current (Machine.write o v line) (Machine.write o (r.value v) line) id
      fun _ => [] := by
  refine .intro (.write o hc hv) fun m m' hm hg hr => ?_
  simp only [Machine.write, hr.current, hr.heap.frames.holder]
  cases m.heap.frames.holder m.current o.depth o.name with
  | ok frame => exact .done rfl { hr with heap := hr.heap.bind frame o.name v }
  | error fault => exact .failed hr

theorem define (hc : whole.Allows h (.frame current)) (hv : whole.AllowsAll h v.places) :
    Renumbered r h current (Machine.define name v line) (Machine.define name (r.value v) line) id
      fun _ => [] := by
  refine .intro (.define hc hv) fun m m' hm hg hr => ?_
  simp only [Machine.define, hr.current, hr.heap.frames.accepts]
  split
  · exact .done rfl { hr with heap := hr.heap.bind m.current name v }
  · exact .failed hr

theorem assignHere (hc : whole.Allows h (.frame current)) (hv : whole.AllowsAll h v.places) :
    Renumbered r h current (Machine.assignHere name v) (Machine.assignHere name (r.value v)) id
      fun _ => [] := by
  refine .intro (.assignHere hc hv) fun m m' hm hg hr => ?_
  simp only [Machine.assignHere, hr.current, hr.heap.frames.isSome_find?]
  split
  · exact .done rfl { hr with heap := hr.heap.bind m.current name v }
  · exact .done rfl hr

theorem defineAll_alike (entries : List (String × Value)) {m m' : Machine}
    (hr : m.Renumbered r m') :
    (Machine.defineAll frame entries m).Renumbered r id
      (Machine.defineAll frame (entries.map fun entry => (entry.1, r.value entry.2)) m') := by
  induction entries generalizing m m' with
  | nil => exact .done rfl hr
  | cons entry rest ih =>
    simp only [List.map_cons, Machine.defineAll, hr.heap.frames.accepts]
    split
    · exact ih { hr with heap := hr.heap.bind frame entry.1 entry.2 }
    · exact ih hr

theorem defineAll {entries : List (String × Value)} (hf : whole.Allows h (.frame frame))
    (hv : ∀ entry ∈ entries, whole.AllowsAll h entry.2.places) :
    Renumbered r h current (Machine.defineAll frame entries)
      (Machine.defineAll frame (entries.map fun entry => (entry.1, r.value entry.2))) id
      fun _ => [] :=
  .intro (.defineAll hf hv) fun _ _ _ _ hr => defineAll_alike entries hr

theorem setField {id : InstanceId} (hid : whole.Allows h (.object id))
    (hv : whole.AllowsAll h v.places) :
    Renumbered r h current (Machine.setField id name v) (Machine.setField id name (r.value v))
      (fun u => u) fun _ => [] :=
  .intro (.setField hid hv) fun _ _ _ _ hr =>
    .done rfl { hr with heap := hr.heap.setField id name v }

theorem property {id : InstanceId} (hid : whole.Allows h (.object id)) :
    Renumbered r h current (Machine.property id name line) (Machine.property id name line) r.value
      Value.places := by
  refine .intro (.property hid) fun m m' hm hg hr => ?_
  simp only [Machine.property, Lox.Action.bind_apply, Action.inspect,
    hr.heap.property? (hid.mono hg)]
  cases m.heap.property? id name with
  | none => exact .failed hr
  | some found =>
    cases found with
    | field v => exact .done rfl hr
    | method method =>
      obtain ⟨hb, hheap⟩ := hr.heap.bindMethod method id
      exact .done (congrArg Value.function hb) { hr with heap := hheap }

theorem print (text : String) :
    Renumbered r h current (Machine.print text) (Machine.print text) id fun _ => [] := by
  refine .intro (.print text) fun m m' hm hg hr => ?_
  simp only [Machine.print, hr.world]
  split
  · exact .done rfl { hr with world := rfl }
  · exact .failed { hr with world := rfl }

theorem tick : Renumbered r h current Machine.tick Machine.tick r.value Value.places := by
  refine .intro .tick fun m m' hm hg hr => ?_
  simp only [Machine.tick, hr.world]
  exact .done rfl { hr with world := rfl }

/-! What is made. -/

theorem addFrame {outer : FrameId} (ho : whole.Allows h (.frame outer)) :
    Renumbered r h current (Machine.allocate (·.addFrame outer))
      (Machine.allocate (·.addFrame outer)) id fun made => [.frame made] := by
  refine .allocate (.allocate fun h' hg hh => ?_) fun _ _ hr => hr.addFrame outer
  obtain ⟨hl, hmade⟩ := hh.addFrame (ho.mono hg)
  exact ⟨hl, allowsAll_singleton.2 hmade⟩

theorem addFunction {fn : Function} (hc : whole.Allows h (.frame fn.closure)) :
    Renumbered r h current (Machine.allocate (·.addFunction fn))
      (Machine.allocate (·.addFunction fn)) r.functionId fun made => [.function made] := by
  refine .allocate (.allocate fun h' hg hh => ?_) fun _ _ hr => hr.addFunction fn
  obtain ⟨hl, hmade⟩ := hh.addFunction (f := fn) (hc.mono hg)
  exact ⟨hl, allowsAll_singleton.2 hmade⟩

theorem addMethods (methods : List (FunDecl Stmt)) (hf : whole.Allows h (.frame frame)) :
    Renumbered r h current (Machine.allocate (·.addMethods frame methods []))
      (Machine.allocate (·.addMethods frame methods [])) (Bindings.mapValues r.functionId)
      methodPlaces :=
  .allocate (.allocate fun _ hg hh => hh.addMethods (hf.mono hg) allowsAll_nil)
    fun _ _ hr => hr.addMethods frame methods []

theorem addClass {c : ClassObject} (hc : whole.AllowsAll h (methodPlaces c.methods)) :
    Renumbered r h current (Machine.allocate (·.addClass c))
      (Machine.allocate (·.addClass (r.classObject c))) r.classId
      fun made => [.classObject made] := by
  refine .allocate (.allocate fun h' hg hh => ?_) fun _ _ hr => hr.addClass c
  obtain ⟨hl, hmade⟩ := hh.addClass (c := c) (hc.mono hg)
  exact ⟨hl, allowsAll_singleton.2 hmade⟩

theorem addInstance {id : ClassId} (hc : whole.Allows h (.classObject id)) :
    Renumbered r h current (Machine.allocate (·.addInstance id))
      (Machine.allocate (·.addInstance (r.classId id))) (fun made => made)
      fun made => [.object made] := by
  refine .allocate (.allocate fun h' hg hh => ?_) fun _ _ hr => hr.addInstance id
  obtain ⟨hl, hmade⟩ := hh.addInstance (hc.mono hg)
  exact ⟨hl, allowsAll_singleton.2 hmade⟩

theorem bindMethod {method : FunctionId} {receiver : InstanceId}
    (hm : whole.Allows h (.function method)) (hr : whole.Allows h (.object receiver)) :
    Renumbered r h current (Machine.allocate (·.bindMethod method receiver))
      (Machine.allocate (·.bindMethod (r.functionId method) receiver)) r.functionId
      fun made => [.function made] := by
  refine .allocate (.allocate fun h' hg hh => ?_) fun _ _ hr => hr.bindMethod method receiver
  obtain ⟨hl, hmade⟩ := hh.bindMethod (hm.mono hg) (hr.mono hg)
  exact ⟨hl, allowsAll_singleton.2 hmade⟩

theorem lookFunction {id : FunctionId} (hid : whole.Allows h (.function id)) :
    Renumbered r h current (Action.inspect (·.heap.function id))
      (Action.inspect (·.heap.function (r.functionId id))) (fun fn => fn)
      fun fn => [.frame fn.closure] :=
  look (fun h _ => h.function id) (fun h _ => h.function (r.functionId id))
    fun _ _ hg hh hr => ⟨hr.function id, hh.closed (hid.mono hg)⟩

theorem lookCurrent (hc : whole.Allows h (.frame current)) :
    Renumbered r h current (Action.inspect (·.current)) (Action.inspect (·.current)) id
      fun frame => [.frame frame] :=
  look (fun _ current => current) (fun _ current => current)
    fun _ _ hg _ _ => ⟨rfl, allowsAll_singleton.2 (hc.mono hg)⟩

theorem inNewFrame (hc : whole.Allows h (.frame current))
    (hx : ∀ h' frame, h.GrowsTo h' → whole.Allows h' (.frame frame) →
      Renumbered r h' frame x x' f places) :
    Renumbered r h current (Machine.inNewFrame x) (Machine.inNewFrame x') f places :=
  .bind (lookCurrent hc) fun _ _ hg houter =>
    .bind (.addFrame (allowsAll_singleton.1 houter)) fun frame h' hg' hmade =>
      .inFrame (hx h' frame (hg.trans hg') (allowsAll_singleton.1 hmade))

end Action.Renumbered
end Lox
