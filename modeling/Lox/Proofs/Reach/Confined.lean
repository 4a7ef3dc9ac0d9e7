import Lox.Proofs.Operators
import Lox.Proofs.Steps.Instrument
import Lox.Proofs.Reach.Places

/-! A call does not get at what it cannot reach. Evaluation is watched step by step: it starts in a
region of the heap that is closed under links, adds to it what it makes, and stays in it. -/
namespace Lox

variable {α β : Type}

/-- An action that notes the heaps it passes through. -/
def Trace (α : Type) : Type := Machine → List Heap × Answer Machine α

namespace Trace

protected def pure (a : α) : Trace α := fun m => ([], .done a m)

protected def bind (x : Trace α) (f : α → Trace β) : Trace β := fun m =>
  match x m with
  | (seen, .done a m') => (seen ++ (f a m').1, (f a m').2)
  | (seen, .failed d m') => (seen, .failed d m')
  | (seen, .outOfFuel) => (seen, .outOfFuel)

instance : Monad Trace where
  pure := Trace.pure
  bind := Trace.bind

theorem bind_apply (x : Trace α) (f : α → Trace β) (m : Machine) :
    (x >>= f) m = match x m with
      | (seen, .done a m') => (seen ++ (f a m').1, (f a m').2)
      | (seen, .failed d m') => (seen, .failed d m')
      | (seen, .outOfFuel) => (seen, .outOfFuel) := rfl

/-- Every single step notes the heap that it leaves. -/
def instrument : Instrument Trace where
  fuelSpent := fun _ => ([], .outOfFuel)
  step x _ := fun m => ((x m).state?.toList.map (·.heap), x m)
  inFrame frame x := fun m =>
    let r := x { m with current := frame }
    (r.1, r.2.onState fun m' => { m' with current := m.current })
  asCall line x := fun m =>
    if m.atLimit then ([], .failed ⟨line, .runtime .callsTooDeep⟩ m)
    else
      let r := x { m with toWorld := m.enterCall }
      (r.1, r.2.onState fun m' => { m' with toWorld := m'.leaveCall })

/-- What is watched does what it does alone. -/
theorem instrument_matches : instrument.Matches fun _ x y => ∀ m, (x m).2 = y m where
  fuelSpent _ := rfl
  pure _ _ := rfl
  step _ _ := rfl
  bind {_ _ x y f g} hx hf m := by
    rw [bind_apply, Lox.Action.bind_apply, ← hx m]
    rcases x m with ⟨seen, answer⟩
    cases answer with
    | done a m' => exact hf a m'
    | failed d m' => rfl
    | outOfFuel => rfl
  inFrame {_} frame {x y} hx m := by
    rw [Machine.inFrame_apply, ← hx]
    rfl
  asCall {_} line {x y} hx m := by
    rw [Machine.asCall_apply]
    simp only [instrument]
    split
    · rfl
    · rw [← hx]

end Trace

def Signal.places : Signal → List Place
  | .returned v => v.places
  | _ => []

/-- The answer leaves a later heap of the region, and the places of its result belong to it. -/
def Answer.Confined (r : Region) (h : Heap) (current : FrameId) (places : α → List Place) :
    Answer Machine α → Prop
  | .done a m => m.current = current ∧ r.Leads h m.heap ∧ r.AllowsAll m.heap (places a)
  | .failed _ m => m.current = current ∧ r.Leads h m.heap
  | .outOfFuel => True

/-- From any heap of the region that is `h` or later, the action leads to such an answer. -/
def Action.Confined (r : Region) (h : Heap) (current : FrameId) (x : Action Machine α)
    (places : α → List Place) : Prop :=
  ∀ m, m.current = current → h.GrowsTo m.heap → r.Held m.heap →
    (x m).Confined r m.heap current places

/-- The same, and nothing on the way is outside the region either. -/
def Trace.Confined (r : Region) (h : Heap) (current : FrameId) (x : Trace α)
    (places : α → List Place) : Prop :=
  ∀ m, m.current = current → h.GrowsTo m.heap → r.Held m.heap →
    (∀ seen ∈ (x m).1, r.Held seen) ∧ (x m).2.Confined r m.heap current places

section
variable {r : Region} {h h' : Heap} {current : FrameId}

namespace Answer.Confined

variable {places : α → List Place} {answer : Answer Machine α}

theorem held (ha : answer.Confined r h current places) :
    ∀ last ∈ answer.state?, r.Held last.heap := by
  intro last hlast
  cases answer with
  | done a m =>
    cases hlast
    exact ha.2.1.held
  | failed d m =>
    cases hlast
    exact ha.2.held
  | outOfFuel => cases hlast

theorem after (ha : answer.Confined r h' current places) (hl : r.Leads h h') :
    answer.Confined r h current places := by
  cases answer with
  | done a m => exact ⟨ha.1, hl.trans ha.2.1, ha.2.2⟩
  | failed d m => exact ⟨ha.1, hl.trans ha.2⟩
  | outOfFuel => trivial

end Answer.Confined

namespace Trace.Confined

variable {places : α → List Place} {places' : β → List Place}

theorem pure {a : α} (ha : r.AllowsAll h (places a)) :
    Trace.Confined r h current (Pure.pure a) places := by
  intro m hm hg hh
  exact ⟨fun _ hseen => absurd hseen List.not_mem_nil, hm, .refl hh, ha.mono hg⟩

theorem fuelSpent : Trace.Confined r h current (instrument.fuelSpent : Trace α) places :=
  fun _ _ _ _ => ⟨fun _ hseen => absurd hseen List.not_mem_nil, trivial⟩

theorem step {x : Action Machine α} (hx : Step x) (hc : x.Confined r h current places) :
    Trace.Confined r h current (instrument.step x hx) places := by
  intro m hm hg hh
  have hanswer := hc m hm hg hh
  refine ⟨fun seen hseen => ?_, hanswer⟩
  obtain ⟨last, hlast, rfl⟩ := List.mem_map.1 hseen
  exact hanswer.held last (Option.mem_toList.1 hlast)

theorem bind {x : Trace α} {f : α → Trace β} (hx : Trace.Confined r h current x places)
    (hf : ∀ a h', h.GrowsTo h' → r.AllowsAll h' (places a) →
      Trace.Confined r h' current (f a) places') :
    Trace.Confined r h current (x >>= f) places' := by
  intro m hm hg hh
  obtain ⟨hseen, hanswer⟩ := hx m hm hg hh
  rw [bind_apply]
  generalize x m = r' at hseen hanswer
  rcases r' with ⟨seen, answer⟩
  cases answer with
  | done a m' =>
    obtain ⟨hm', hl, ha⟩ := hanswer
    obtain ⟨hseen', hanswer'⟩ := hf a m'.heap (hg.trans hl.grows) ha m' hm' (.refl _) hl.held
    refine ⟨fun s hs => ?_, hanswer'.after hl⟩
    rcases List.mem_append.1 hs with hs | hs
    · exact hseen s hs
    · exact hseen' s hs
  | failed d m' => exact ⟨hseen, hanswer⟩
  | outOfFuel => exact ⟨hseen, trivial⟩

theorem inFrame {frame : FrameId} {x : Trace α} (hx : Trace.Confined r h frame x places) :
    Trace.Confined r h current (instrument.inFrame frame x) places := by
  intro m hm hg hh
  obtain ⟨hseen, hanswer⟩ := hx { m with current := frame } rfl hg hh
  refine ⟨hseen, ?_⟩
  simp only [instrument]
  cases hr : (x { m with current := frame }).2 with
  | done a m' =>
    rw [hr] at hanswer
    exact ⟨hm, hanswer.2⟩
  | failed d m' =>
    rw [hr] at hanswer
    exact ⟨hm, hanswer.2⟩
  | outOfFuel => trivial

theorem asCall {line : Nat} {x : Trace α} (hx : Trace.Confined r h current x places) :
    Trace.Confined r h current (instrument.asCall line x) places := by
  intro m hm hg hh
  simp only [instrument]
  split
  · exact ⟨fun _ hseen => absurd hseen List.not_mem_nil, hm, .refl hh⟩
  · obtain ⟨hseen, hanswer⟩ := hx { m with toWorld := m.enterCall } hm hg hh
    refine ⟨hseen, ?_⟩
    cases hr : (x { m with toWorld := m.enterCall }).2 with
    | done a m' =>
      rw [hr] at hanswer
      exact hanswer
    | failed d m' =>
      rw [hr] at hanswer
      exact hanswer
    | outOfFuel => trivial

end Trace.Confined

namespace Action.Confined

variable {places : α → List Place} {frame : FrameId} {name : String} {v : Value} {line : Nat}

/-! The single steps. -/

theorem fail {f : Fault} : (Action.fail line f : Action Machine α).Confined r h current places :=
  fun _ hm _ hh => ⟨hm, .refl hh⟩

theorem look {f : Heap → FrameId → α}
    (hf : ∀ h', h.GrowsTo h' → r.Held h' → r.AllowsAll h' (places (f h' current))) :
    (Action.inspect fun m : Machine => f m.heap m.current).Confined r h current places := by
  intro m hm hg hh
  subst hm
  exact ⟨rfl, .refl hh, hf m.heap hg hh⟩

theorem allocate {f : Heap → α × Heap} (hf : ∀ h', h.GrowsTo h' → r.Held h' →
    r.Leads h' (f h').2 ∧ r.AllowsAll (f h').2 (places (f h').1)) :
    (Machine.allocate f).Confined r h current places := by
  intro m hm hg hh
  exact ⟨hm, hf m.heap hg hh⟩

theorem lift {result : Except RuntimeFault Value} (hresult : IsOperation result) :
    (Action.lift line result : Action Machine Value).Confined r h current Value.places := by
  intro m hm hg hh
  cases result with
  | error f => exact ⟨hm, .refl hh⟩
  | ok v =>
    refine ⟨hm, .refl hh, ?_⟩
    cases v with
    | bool | number | string => exact Region.allowsAll_nil
    | nil | native | function | classObject | object => exact absurd hresult id

theorem finish {op : BinaryOp} {w : Value} (hw : r.AllowsAll h w.places) :
    (op.finish v w line : Action Machine Value).Confined r h current Value.places := by
  cases op with
  | strict op => exact lift (op.apply_isOperation v w)
  | or | and => exact fun m hm hg hh => ⟨hm, .refl hh, hw.mono hg⟩

theorem read (o : Occurrence) (hc : r.Allows h (.frame current)) :
    (Machine.read o line).Confined r h current Value.places := by
  intro m hm hg hh
  subst hm
  unfold Machine.read
  cases hr : m.heap.frames.read m.current o.depth o.name with
  | ok v => exact ⟨rfl, .refl hh, hh.read (hc.mono hg) hr⟩
  | error f => exact ⟨rfl, .refl hh⟩

theorem write (o : Occurrence) (hc : r.Allows h (.frame current)) (hv : r.AllowsAll h v.places) :
    (Machine.write o v line).Confined r h current fun _ => [] := by
  intro m hm hg hh
  subst hm
  unfold Machine.write
  cases hr : m.heap.frames.holder m.current o.depth o.name with
  | ok frame =>
    have hframe := hh.holder (hc.mono hg) hr
    exact ⟨rfl, hh.bind hframe (hv.mono hg) o.name, Region.allowsAll_nil⟩
  | error f => exact ⟨rfl, .refl hh⟩

theorem define (hc : r.Allows h (.frame current)) (hv : r.AllowsAll h v.places) :
    (Machine.define name v line).Confined r h current fun _ => [] := by
  intro m hm hg hh
  subst hm
  unfold Machine.define
  split
  · exact ⟨rfl, hh.bind (hc.mono hg) (hv.mono hg) name, Region.allowsAll_nil⟩
  · exact ⟨rfl, .refl hh⟩

theorem assignHere (hc : r.Allows h (.frame current)) (hv : r.AllowsAll h v.places) :
    (Machine.assignHere name v).Confined r h current fun _ => [] := by
  intro m hm hg hh
  subst hm
  unfold Machine.assignHere
  split
  · exact ⟨rfl, hh.bind (hc.mono hg) (hv.mono hg) name, Region.allowsAll_nil⟩
  · exact ⟨rfl, .refl hh, Region.allowsAll_nil⟩

theorem defineAll {entries : List (String × Value)} (hf : r.Allows h (.frame frame))
    (hv : ∀ entry ∈ entries, r.AllowsAll h entry.2.places) :
    (Machine.defineAll frame entries).Confined r h current fun _ => [] := by
  induction entries with
  | nil => exact fun m hm hg hh => ⟨hm, .refl hh, Region.allowsAll_nil⟩
  | cons entry rest ih =>
    obtain ⟨hentry, hrest⟩ := List.forall_mem_cons.1 hv
    intro m hm hg hh
    simp only [Machine.defineAll]
    split
    · have hl := hh.bind (hf.mono hg) (hentry.mono hg) entry.1
      have hanswer := ih hrest (m.bind frame entry.1 entry.2) hm (hg.trans hl.grows) hl.held
      exact hanswer.after hl
    · exact ih hrest m hm hg hh

theorem setField {id : InstanceId} (hid : r.Allows h (.object id))
    (hv : r.AllowsAll h v.places) :
    (Machine.setField id name v).Confined r h current fun _ => [] :=
  fun _ hm hg hh => ⟨hm, hh.setField (hid.mono hg) (hv.mono hg) name, Region.allowsAll_nil⟩

theorem property {id : InstanceId} (hid : r.Allows h (.object id)) :
    (Machine.property id name line).Confined r h current Value.places := by
  intro m hm hg hh
  unfold Machine.property
  rw [Lox.Action.bind_apply]
  simp only [Action.inspect]
  cases hp : m.heap.property? id name with
  | none => exact ⟨hm, .refl hh⟩
  | some found =>
    have hfound := hh.property? (hid.mono hg) hp
    cases found with
    | field v => exact ⟨hm, .refl hh, hfound⟩
    | method method =>
      obtain ⟨hl, hmade⟩ := hh.bindMethod (Region.allowsAll_singleton.1 hfound) (hid.mono hg)
      exact ⟨hm, hl, Region.allowsAll_singleton.2 hmade⟩

theorem print (text : String) : (Machine.print text).Confined r h current fun _ => [] := by
  intro m hm hg hh
  unfold Machine.print
  simp only
  split
  · exact ⟨hm, .refl hh, Region.allowsAll_nil⟩
  · exact ⟨hm, .refl hh⟩

theorem tick : Machine.tick.Confined r h current Value.places :=
  fun _ hm _ hh => ⟨hm, .refl hh, Region.allowsAll_nil⟩

end Action.Confined
end
end Lox
