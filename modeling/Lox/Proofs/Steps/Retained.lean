import Mathlib
import Lox.Session
import Lox.Proofs.Frames
import Lox.Proofs.Steps.Instrument

/-! The heap only grows. Whatever an evaluation does, and however it ends, what was in the heap stays
there: frames with their links and their names, functions, classes, instances with their fields. The
names that a local frame has change their values by assignments only. -/
namespace Lox

variable {α β : Type}

/-- Names in frames. -/
abbrev FrameNames := Set (FrameId × String)

/-! Frames. -/

namespace Frames

/-- The later frames have the links and the names of the earlier ones. A name of a local frame has
its old value, unless it is among the assigned ones. -/
structure Retains (assigned : FrameNames) (fs fs' : Frames) : Prop where
  links : fs.Extends fs'
  names {f : FrameId} {name : String} : (fs.find? f name).isSome → (fs'.find? f name).isSome
  values {f : FrameId} {name : String} {v : Value} : fs.isRoot f = false →
    fs.find? f name = some v → (f, name) ∉ assigned → fs'.find? f name = some v

namespace Retains

variable {fs fs' fs'' : Frames} {assigned assigned' : FrameNames} {f : FrameId} {name : String}

theorem refl (fs : Frames) : fs.Retains assigned fs where
  links := .refl fs
  names h := h
  values _ h _ := h

theorem isRoot (h : fs.Retains assigned fs') (hf : fs.isRoot f = false) :
    fs'.isRoot f = false := by
  unfold Frames.isRoot at hf
  split at hf
  next values outer root hframe =>
    obtain ⟨values', hframe'⟩ := h.links f _ hframe
    simp [Frames.isRoot, hframe']
  next => cases hf

theorem trans (h : fs.Retains assigned fs') (h' : fs'.Retains assigned' fs'') :
    fs.Retains (assigned ∪ assigned') fs'' where
  links := h.links.trans h'.links
  names hn := h'.names (h.names hn)
  values hf hv ha := by
    obtain ⟨hfirst, hsecond⟩ := not_or.1 ha
    exact h'.values (h.isRoot hf) (h.values hf hv hfirst) hsecond

theorem mono (h : fs.Retains assigned fs') (ha : assigned ⊆ assigned') :
    fs.Retains assigned' fs' where
  links := h.links
  names := h.names
  values hf hv hn := h.values hf hv fun hmem => hn (ha hmem)

/-- A name that the frame would still take has no value that could be lost. -/
theorem of_accepts (h : fs.Retains {(f, name)} fs') (ha : fs.accepts f name) :
    fs.Retains ∅ fs' where
  links := h.links
  names := h.names
  values {g other v} hg hv _ := by
    refine h.values hg hv fun hmem => ?_
    obtain ⟨rfl, rfl⟩ := Prod.mk.inj (Set.mem_singleton_iff.1 hmem)
    simp [accepts, hg, hv] at ha

theorem bind (fs : Frames) (f : FrameId) (name : String) (v : Value) :
    fs.Retains {(f, name)} (fs.bind f name v) where
  links := .bind fs f name v
  names {g other} hn := by
    obtain ⟨w, hw⟩ := Option.isSome_iff_exists.1 hn
    by_cases hs : g = f ∧ other = name
    · obtain ⟨rfl, rfl⟩ := hs
      rw [find?_bind_self (find?_eq_some_lt hw)]
      rfl
    · rw [find?_bind_ne (Classical.not_and_iff_not_or_not.1 hs), hw]
      rfl
  values {g other w} _ hw hne := by
    have hs : ¬(g = f ∧ other = name) := fun ⟨hf, hn⟩ => hne (hf ▸ hn ▸ rfl)
    rw [find?_bind_ne (Classical.not_and_iff_not_or_not.1 hs), hw]

theorem addChild (fs : Frames) (outer : FrameId) : fs.Retains ∅ (fs.addChild outer).2 where
  links := .addChild fs outer
  names hn := by rwa [find?_addChild]
  values _ hv _ := by rw [find?_addChild, hv]

end Retains
end Frames

/-! Heaps. -/

namespace Heap

/-- The later heap has what the earlier one has. -/
structure Retains (assigned : FrameNames) (h h' : Heap) : Prop where
  frames : h.frames.Retains assigned h'.frames
  functions {id : FunctionId} {f : Function} : h.functions[id]? = some f →
    h'.functions[id]? = some f
  classes {id : ClassId} {c : ClassObject} : h.classes[id]? = some c → h'.classes[id]? = some c
  objects {id : InstanceId} {i : Instance} : h.instances[id]? = some i →
    ∃ fields, h'.instances[id]? = some ⟨i.classId, fields⟩ ∧
      ∀ name, i.fields.has name → fields.has name

namespace Retains

variable {h h' h'' : Heap} {assigned assigned' : FrameNames}

/-- A heap with other frames. -/
theorem of_frames {fs : Frames} (hf : h.frames.Retains assigned fs) :
    h.Retains assigned { h with frames := fs } where
  frames := hf
  functions hs := hs
  classes hs := hs
  objects {_ i} hs := ⟨i.fields, hs, fun _ hn => hn⟩

theorem refl (h : Heap) : h.Retains assigned h := of_frames (.refl _)

theorem trans (hr : h.Retains assigned h') (hr' : h'.Retains assigned' h'') :
    h.Retains (assigned ∪ assigned') h'' where
  frames := hr.frames.trans hr'.frames
  functions hs := hr'.functions (hr.functions hs)
  classes hs := hr'.classes (hr.classes hs)
  objects hs := by
    obtain ⟨fields, hs', hnames⟩ := hr.objects hs
    obtain ⟨fields', hs'', hnames'⟩ := hr'.objects hs'
    exact ⟨fields', hs'', fun name hn => hnames' name (hnames name hn)⟩

/-- Two steps that assign nothing. -/
theorem andThen (hr : h.Retains ∅ h') (hr' : h'.Retains ∅ h'') : h.Retains ∅ h'' := by
  simpa only [Set.union_self] using hr.trans hr'

theorem mono (hr : h.Retains assigned h') (ha : assigned ⊆ assigned') : h.Retains assigned' h' where
  frames := hr.frames.mono ha
  functions := hr.functions
  classes := hr.classes
  objects := hr.objects

theorem of_accepts {f : FrameId} {name : String} (hr : h.Retains {(f, name)} h')
    (ha : h.frames.accepts f name) : h.Retains ∅ h' where
  frames := hr.frames.of_accepts ha
  functions := hr.functions
  classes := hr.classes
  objects := hr.objects

theorem bind (h : Heap) (f : FrameId) (name : String) (v : Value) :
    h.Retains {(f, name)} (h.bind f name v) := of_frames (.bind _ f name v)

theorem addFrame (h : Heap) (outer : FrameId) : h.Retains ∅ (h.addFrame outer).2 :=
  of_frames (.addChild _ outer)

private theorem push_keeps {γ : Type} {as : Array γ} {a b : γ} {id : Nat}
    (hs : as[id]? = some a) : (as.push b)[id]? = some a := by
  obtain ⟨hlt, -⟩ := Array.getElem?_eq_some_iff.1 hs
  rw [Array.getElem?_push, if_neg (Nat.ne_of_lt hlt), hs]

theorem addFunction (h : Heap) (f : Function) : h.Retains ∅ (h.addFunction f).2 where
  frames := .refl _
  functions := push_keeps
  classes hs := hs
  objects {_ i} hs := ⟨i.fields, hs, fun _ hn => hn⟩

theorem addClass (h : Heap) (c : ClassObject) : h.Retains ∅ (h.addClass c).2 where
  frames := .refl _
  functions hs := hs
  classes := push_keeps
  objects {_ i} hs := ⟨i.fields, hs, fun _ hn => hn⟩

theorem addInstance (h : Heap) (c : ClassId) : h.Retains ∅ (h.addInstance c).2 where
  frames := .refl _
  functions hs := hs
  classes hs := hs
  objects {_ i} hs := ⟨i.fields, push_keeps hs, fun _ hn => hn⟩

theorem setField (h : Heap) (id : InstanceId) (name : String) (v : Value) :
    h.Retains ∅ (h.setField id name v) where
  frames := .refl _
  functions hs := hs
  classes hs := hs
  objects {id' i} hs := by
    simp only [Heap.setField, Array.getElem?_modify, hs]
    split
    · refine ⟨i.fields.insert name v, rfl, fun other hn => ?_⟩
      simp only [Bindings.has, Bindings.find?_insert] at hn ⊢
      split
      · rfl
      · exact hn
    · exact ⟨i.fields, rfl, fun _ hn => hn⟩

theorem addMethods (h : Heap) (frame : FrameId) (methods : List (FunDecl Stmt))
    (table : Bindings FunctionId) : h.Retains ∅ (h.addMethods frame methods table).2 := by
  induction methods generalizing h table with
  | nil => exact .refl h
  | cons decl rest ih => exact (addFunction h ⟨decl, frame⟩).andThen (ih _ _)

/-- The new frame has no name yet. -/
theorem bindMethod (h : Heap) (method : FunctionId) (receiver : InstanceId) :
    h.Retains ∅ (h.bindMethod method receiver).2 := by
  let closure := (h.function method).closure
  have haccepts : h.frames.accepts (h.addFrame closure).1 "this" := by
    have hnone : h.frames.get? (h.addFrame closure).1 = none :=
      Array.getElem?_eq_none (Nat.le_refl _)
    simp [Frames.accepts, Frames.isRoot, hnone]
  have hbind := (addFrame h closure).trans
    (bind (h.addFrame closure).2 (h.addFrame closure).1 "this" (.object receiver))
  rw [Set.empty_union] at hbind
  exact (hbind.of_accepts haccepts).andThen (addFunction _ _)

end Retains
end Heap

/-! Machines. -/

namespace Machine

/-- The later machine has what was in the heap of the earlier one, and what was printed. -/
structure Retains (assigned : FrameNames) (m m' : Machine) : Prop where
  heap : m.heap.Retains assigned m'.heap
  written : ∃ more, m'.sink.written = m.sink.written ++ more

namespace Retains

variable {m m' m'' : Machine} {assigned assigned' : FrameNames}

theorem of_heap {h : Heap} (hr : m.heap.Retains assigned h) :
    m.Retains assigned { m with heap := h } where
  heap := hr
  written := ⟨.empty, ByteArray.append_empty.symm⟩

theorem refl (m : Machine) : m.Retains assigned m := of_heap (.refl _)

theorem trans (hr : m.Retains assigned m') (hr' : m'.Retains assigned' m'') :
    m.Retains (assigned ∪ assigned') m'' where
  heap := hr.heap.trans hr'.heap
  written := by
    obtain ⟨more, hmore⟩ := hr.written
    obtain ⟨more', hmore'⟩ := hr'.written
    exact ⟨more ++ more', by rw [hmore', hmore, ByteArray.append_assoc]⟩

theorem mono (hr : m.Retains assigned m') (ha : assigned ⊆ assigned') :
    m.Retains assigned' m' := ⟨hr.heap.mono ha, hr.written⟩

end Retains
end Machine

/-- The action loses nothing, and assigns nothing. -/
def Action.Retains (x : Action Machine α) : Prop := ∀ m, ∀ m' ∈ (x m).state?, m.Retains ∅ m'

namespace Action.Retains

theorem of_same {x : Action Machine α} (h : ∀ m, ∀ m' ∈ (x m).state?, m' = m) : x.Retains :=
  fun m m' hm' => (h m m' hm').symm ▸ .refl m

theorem fail (line : Nat) (f : Fault) : (Action.fail line f : Action Machine α).Retains :=
  of_same fun m m' hm' => by cases hm'; rfl

theorem pure (a : α) : (Pure.pure a : Action Machine α).Retains :=
  of_same fun m m' hm' => by cases hm'; rfl

theorem look (f : Heap → FrameId → α) :
    (Action.inspect fun m : Machine => f m.heap m.current).Retains :=
  of_same fun m m' hm' => by cases hm'; rfl

theorem lift (line : Nat) (r : Except RuntimeFault α) :
    (Action.lift line r : Action Machine α).Retains := by
  cases r with
  | ok a => exact .pure a
  | error f => exact .fail line _

theorem finish (op : BinaryOp) (v w : Value) (line : Nat) :
    (op.finish v w line : Action Machine Value).Retains := by
  cases op with
  | strict op => exact .lift line _
  | or | and => exact .pure w

theorem read (o : Occurrence) (line : Nat) : (Machine.read o line).Retains := by
  refine of_same fun m m' hm' => ?_
  unfold Machine.read at hm'
  split at hm' <;> cases hm' <;> rfl

theorem allocate {f : Heap → α × Heap} (hf : ∀ h : Heap, h.Retains ∅ (f h).2) :
    (Machine.allocate f).Retains := by
  intro m m' hm'
  cases hm'
  exact .of_heap (hf m.heap)

theorem bind {x : Action Machine α} {f : α → Action Machine β} (hx : x.Retains)
    (hf : ∀ a, (f a).Retains) : (x >>= f).Retains := by
  intro m m' hm'
  rw [bind_apply] at hm'
  cases hr : x m with
  | done a mid =>
    have hfirst := hx m mid (by rw [hr]; rfl)
    rw [hr] at hm'
    simpa only [Set.union_self] using hfirst.trans (hf a mid m' hm')
  | failed d mid =>
    have hfirst := hx m mid (by rw [hr]; rfl)
    rw [hr] at hm'
    cases hm'
    exact hfirst
  | outOfFuel =>
    rw [hr] at hm'
    cases hm'

theorem setField (id : InstanceId) (name : String) (v : Value) :
    (Machine.setField id name v).Retains := by
  intro m m' hm'
  cases hm'
  exact .of_heap (.setField _ id name v)

theorem property (id : InstanceId) (name : String) (line : Nat) :
    (Machine.property id name line).Retains := by
  refine .bind (.look fun h _ => h.property? id name) fun found => ?_
  cases found with
  | none => exact .fail line _
  | some found =>
    cases found with
    | field v => exact .pure v
    | method method =>
      exact .bind (.allocate fun h => .bindMethod h method id) fun bound => .pure _

/-- A local frame refuses a second definition. -/
theorem define (name : String) (v : Value) (line : Nat) : (Machine.define name v line).Retains := by
  intro m m' hm'
  unfold Machine.define at hm'
  split at hm'
  next haccepts =>
    cases hm'
    exact .of_heap ((Heap.Retains.bind _ _ _ v).of_accepts haccepts)
  next =>
    cases hm'
    exact .refl m

theorem defineAll (frame : FrameId) (entries : List (String × Value)) :
    (Machine.defineAll frame entries).Retains := by
  induction entries with
  | nil => exact .pure ()
  | cons entry rest ih =>
    intro m m' hm'
    simp only [Machine.defineAll] at hm'
    split at hm'
    next haccepts =>
      have hbind : m.Retains ∅ (m.bind frame entry.1 entry.2) :=
        .of_heap ((Heap.Retains.bind _ _ _ entry.2).of_accepts haccepts)
      simpa only [Set.union_self] using hbind.trans (ih _ m' hm')
    next => exact ih m m' hm'

theorem print (text : String) : (Machine.print text).Retains := by
  intro m m' hm'
  have hwritten : ∃ more, (m.toWorld.print text).2.sink.written = m.sink.written ++ more := by
    simp only [World.print, Sink.write]
    split
    · exact ⟨_, rfl⟩
    · split <;> exact ⟨_, rfl⟩
  unfold Machine.print at hm'
  simp only at hm'
  split at hm' <;> cases hm' <;> exact ⟨.refl _, hwritten⟩

theorem tick : Machine.tick.Retains := by
  intro m m' hm'
  cases hm'
  exact ⟨.refl _, .empty, ByteArray.append_empty.symm⟩

/-- The name that a class declaration completes is one that it has made: where it was there before,
the declaration fails. -/
theorem classDecl (fuel : Nat) (name : String) (methods : List (FunDecl Stmt)) (line : Nat) :
    (execute (fuel + 1) (.classDecl name methods line)).Retains := by
  intro m m' hm'
  cases haccepts : m.heap.frames.accepts m.current name with
  | false =>
    have hrun : execute (fuel + 1) (.classDecl name methods line) m =
        .failed ⟨line, .runtime (.redeclared name)⟩ m := by
      simp [execute, bind_apply, Machine.define, haccepts]
    rw [hrun] at hm'
    cases hm'
    exact .refl m
  | true =>
    let made := (m.bind m.current name .nil).heap.addMethods m.current methods []
    let last := made.2.addClass ⟨name, made.1⟩
    have hlast : m.heap.Retains {(m.current, name)} last.2 := by
      have hmade := (Heap.Retains.addMethods (m.heap.bind m.current name .nil) m.current methods
        []).andThen (.addClass _ ⟨name, made.1⟩)
      have hboth := (Heap.Retains.bind m.heap m.current name .nil).trans hmade
      rw [Set.union_empty] at hboth
      exact hboth
    have hrun : execute (fuel + 1) (.classDecl name methods line) m =
        (Machine.assignHere name (.classObject last.1) >>= fun _ => Pure.pure .normal)
          { m with heap := last.2 } := by
      simp only [execute, bind_apply, Machine.define, haccepts, if_true]
      rfl
    rw [hrun, bind_apply] at hm'
    unfold Machine.assignHere at hm'
    cases hfound : (last.2.frames.find? m.current name).isSome with
    | false =>
      simp only [hfound] at hm'
      cases hm'
      exact .of_heap (hlast.of_accepts haccepts)
    | true =>
      simp only [hfound, if_true] at hm'
      cases hm'
      have hcompleted := hlast.trans (.bind last.2 m.current name (.classObject last.1))
      rw [Set.union_self] at hcompleted
      exact .of_heap (hcompleted.of_accepts haccepts)

end Action.Retains
/-! Assignments. -/

/-- The action is an assignment, which gives a name of a frame another value. -/
inductive Action.Assigns (m : Machine) : {α : Type} → Action Machine α → FrameId × String → Prop
  | write {o : Occurrence} {v : Value} {line : Nat} {f : FrameId} :
    m.heap.frames.holder m.current o.depth o.name = .ok f →
      Assigns m (Machine.write o v line) (f, o.name)

/-- An action that notes the names that are assigned to. -/
def Noting (α : Type) : Type := Machine → FrameNames × Answer Machine α

namespace Noting

protected def pure (a : α) : Noting α := fun m => (∅, .done a m)

protected def bind (x : Noting α) (f : α → Noting β) : Noting β := fun m =>
  match x m with
  | (assigned, .done a m') => (assigned ∪ (f a m').1, (f a m').2)
  | (assigned, .failed d m') => (assigned, .failed d m')
  | (assigned, .outOfFuel) => (assigned, .outOfFuel)

instance : Monad Noting where
  pure := Noting.pure
  bind := Noting.bind

theorem bind_apply (x : Noting α) (f : α → Noting β) (m : Machine) :
    (x >>= f) m = match x m with
      | (assigned, .done a m') => (assigned ∪ (f a m').1, (f a m').2)
      | (assigned, .failed d m') => (assigned, .failed d m')
      | (assigned, .outOfFuel) => (assigned, .outOfFuel) := rfl

/-- Of the single steps only assignments are noted. -/
def instrument : Instrument Noting where
  fuelSpent := fun _ => (∅, .outOfFuel)
  step x _ := fun m => ({place | x.Assigns m place}, x m)
  inFrame frame x := fun m =>
    let r := x { m with current := frame }
    (r.1, r.2.onState fun m' => { m' with current := m.current })
  asCall line x := fun m =>
    if m.atLimit then (∅, .failed ⟨line, .runtime .callsTooDeep⟩ m)
    else
      let r := x { m with toWorld := m.enterCall }
      (r.1, r.2.onState fun m' => { m' with toWorld := m'.leaveCall })

/-- What takes notes does what it does without. -/
theorem instrument_matches : instrument.Matches fun _ x y => ∀ m, (x m).2 = y m where
  fuelSpent _ := rfl
  pure _ _ := rfl
  step _ _ := rfl
  bind {_ _ x y f g} hx hf m := by
    rw [bind_apply, Lox.Action.bind_apply, ← hx m]
    rcases x m with ⟨assigned, answer⟩
    cases answer with
    | done a m' => exact hf a m'
    | failed d m' => rfl
    | outOfFuel => rfl
  inFrame {_} frame {x y} hx m := by
    rw [Machine.inFrame_apply, ← hx]
    rfl
  asCall {_} line {x y} hx m := by
    rw [Machine.asCall_apply]
    simp only [instrument]
    split
    · rfl
    · rw [← hx]

/-- Nothing is lost, and local names have other values only where it is noted. -/
def Retains (x : Noting α) : Prop := ∀ m, ∀ m' ∈ (x m).2.state?, m.Retains (x m).1 m'

namespace Retains

theorem step {x : Action Machine α} (h : Step x) (hx : x.Retains) : (instrument.step x h).Retains :=
  fun m m' hm' => (hx m m' hm').mono (Set.empty_subset _)

theorem write (o : Occurrence) (v : Value) (line : Nat) :
    (instrument.step (Machine.write o v line) (.write o v line)).Retains := by
  intro m m' hm'
  replace hm' : m' ∈ (Machine.write o v line m).state? := hm'
  unfold Machine.write at hm'
  split at hm'
  next frame hholder =>
    cases hm'
    refine .mono (.of_heap (.bind m.heap frame o.name v)) ?_
    exact Set.singleton_subset_iff.2 (.write hholder)
  next =>
    cases hm'
    exact .refl m

theorem bind {x : Noting α} {f : α → Noting β} (hx : x.Retains) (hf : ∀ a, (f a).Retains) :
    (x >>= f).Retains := by
  intro m m' hm'
  have hfirst := hx m
  rw [bind_apply] at hm' ⊢
  generalize x m = r at hm' hfirst
  rcases r with ⟨assigned, answer⟩
  cases answer with
  | done a mid => exact (hfirst mid rfl).trans (hf a mid m' hm')
  | failed d mid =>
    cases hm'
    exact hfirst _ rfl
  | outOfFuel => cases hm'

theorem inFrame (frame : FrameId) {x : Noting α} (hx : x.Retains) :
    (instrument.inFrame frame x).Retains := by
  intro m m' hm'
  obtain ⟨last, hlast, rfl⟩ := Answer.mem_state?_onState.1 hm'
  have h := hx { m with current := frame } last hlast
  exact ⟨h.heap, h.written⟩

theorem asCall (line : Nat) {x : Noting α} (hx : x.Retains) :
    (instrument.asCall line x).Retains := by
  intro m m' hm'
  simp only [instrument] at hm' ⊢
  split at hm'
  next hat =>
    cases hm'
    exact .refl m
  next hat =>
    obtain ⟨last, hlast, rfl⟩ := Answer.mem_state?_onState.1 hm'
    have h := hx { m with toWorld := m.enterCall } last hlast
    rw [if_neg hat]
    exact ⟨h.heap, h.written⟩

/-- A class declaration is taken as a whole, since its last step alone would give a name that is
there another value. -/
theorem classDecl (fuel : Nat) (name : String) (methods : List (FunDecl Stmt)) (line : Nat) :
    (instrument.execute (fuel + 1) (.classDecl name methods line)).Retains := by
  intro m m' hm'
  rw [(instrument_matches.evaluations (fuel + 1)).execute] at hm'
  exact (Action.Retains.classDecl fuel name methods line m m' hm').mono (Set.empty_subset _)

theorem composes : instrument.Composes fun _ x _ => x.Retains where
  fuelSpent _ _ h := by cases h
  pure a m m' h := by
    cases h
    exact .refl m
  fail line f := step _ (.fail line f)
  lift line r := step _ (.lift line r)
  finish op v w line := step _ (.finish op v w line)
  look f := step _ (.look f)
  read o line := step _ (.read o line)
  write := write
  property id name line := step _ (.property id name line)
  setField id name v := step _ (.setField id name v)
  define name v line := step _ (.define name v line)
  defineAll frame entries := step _ (.defineAll frame entries)
  addFrame outer := step _ (.allocate fun h => .addFrame h outer)
  addFunction f := step _ (.allocate fun h => .addFunction h f)
  addInstance id := step _ (.allocate fun h => .addInstance h id)
  bindMethod method receiver := step _ (.allocate fun h => .bindMethod h method receiver)
  print text := step _ (.print text)
  tick := step _ .tick
  classDecl := classDecl
  bind := bind
  inFrame frame _ _ hx := inFrame frame hx
  asCall line _ _ hx := asCall line hx

end Retains
end Noting

/-! Programs and sessions. -/

namespace Machine

/-- The names that a program assigns to. -/
def assignedBy (fuel : Nat) (program : List Stmt) (m : Machine) : FrameNames :=
  (Noting.instrument.executeProgram fuel program m).1

/-- The names that the sources of a session assign to. -/
def assignedDuring (fuel : Nat) : List String → Machine → FrameNames
  | [], _ => ∅
  | source :: rest, m =>
    (match compile source with
      | .ok program => m.assignedBy fuel program
      | .error _ => ∅) ∪
    match m.run fuel source with
    | some (_, m') => m'.assignedDuring fuel rest
    | none => ∅

variable {m m' : Machine} {fuel : Nat}

theorem interpret_retains {program : List Stmt} {d? : Option Diagnostic}
    (h : m.interpret fuel program = some (d?, m')) : m.Retains (m.assignedBy fuel program) m' := by
  have hrun := Noting.Retains.composes.executeProgram fuel program m
  rw [Noting.instrument_matches.composes.executeProgram fuel program m] at hrun
  obtain ⟨hr, -⟩ | ⟨d, last, hr, -, rfl⟩ := interpret_eq_some.1 h
  · rw [hr] at hrun
    exact hrun _ rfl
  · rw [hr] at hrun
    have hlast := hrun _ rfl
    exact ⟨hlast.heap, hlast.written⟩

theorem session_retains {sources : List String} {entries : List Entry}
    (h : m.session fuel sources = some (entries, m')) :
    m.Retains (m.assignedDuring fuel sources) m' := by
  induction sources generalizing m entries with
  | nil =>
    cases h
    exact .refl _
  | cons source rest ih =>
    obtain ⟨f?, mid, others, hrun, hothers, -⟩ := session_cons_eq_some.1 h
    have hrest := ih hothers
    simp only [assignedDuring, hrun]
    obtain ⟨f, -, -, rfl⟩ | ⟨program, d?, hc, hinterpret, -⟩ := run_eq_some.1 hrun
    · exact hrest.mono Set.subset_union_right
    · simp only [hc]
      exact (interpret_retains hinterpret).trans hrest

end Machine

/-- The heap only grows: whatever expression is evaluated, statement executed, value called, program
or session run, on whatever machine and whether it fails or not, everything that the machine had is
there afterwards, and what it printed is only added to. A name that a local frame had before has its
old value, unless the evaluation has assigned to that very name of that frame; noting assignments
does not change what is done. -/
theorem heap_retained :
    (∀ fuel e (m : Machine), let noted := Noting.instrument.evaluate fuel e m
      noted.2 = evaluate fuel e m ∧ ∀ m' ∈ noted.2.state?, m.Retains noted.1 m') ∧
    (∀ fuel s (m : Machine), let noted := Noting.instrument.execute fuel s m
      noted.2 = execute fuel s m ∧ ∀ m' ∈ noted.2.state?, m.Retains noted.1 m') ∧
    (∀ fuel c vs line (m : Machine), let noted := Noting.instrument.call fuel c vs line m
      noted.2 = call fuel c vs line m ∧ ∀ m' ∈ noted.2.state?, m.Retains noted.1 m') ∧
    (∀ fuel program (m m' : Machine) d?, m.interpret fuel program = some (d?, m') →
      m.Retains (m.assignedBy fuel program) m') ∧
    ∀ fuel sources (m m' : Machine) entries, m.session fuel sources = some (entries, m') →
      m.Retains (m.assignedDuring fuel sources) m' := by
  have hsame (fuel : Nat) := Noting.instrument_matches.evaluations fuel
  have hretains (fuel : Nat) := Noting.Retains.composes.evaluations fuel
  refine ⟨?_, ?_, ?_, ?_, ?_⟩
  · exact fun fuel e m => ⟨(hsame fuel).evaluate e m, (hretains fuel).evaluate e m⟩
  · exact fun fuel s m => ⟨(hsame fuel).execute s m, (hretains fuel).execute s m⟩
  · exact fun fuel c vs line m => ⟨(hsame fuel).call c vs line m, (hretains fuel).call c vs line m⟩
  · exact fun fuel program m m' d? h => Machine.interpret_retains h
  · exact fun fuel sources m m' entries h => Machine.session_retains h

/-- A closure over two local names. -/
def retainedSource : String :=
  "fun make() \x7b var a = nil; var b = nil; fun set() \x7b a = true; \x7d return set; \x7d " ++
    "var s = make();"

/-- The name that has another value after a run that fails is one that was assigned to. -/
theorem heap_retained_closure :
    ∃ m entries last, (Machine.start none .unlimited fun _ => 0).run 16 retainedSource =
        some (none, m) ∧
      m.session 16 ["s(); nothing;"] = some (entries, last) ∧
      m.heap.frames.isRoot 1 = false ∧ m.heap.frames.find? 1 "a" = some .nil ∧
      last.heap.frames.find? 1 "a" = some (.bool true) ∧
      (1, "a") ∈ m.assignedDuring 16 ["s(); nothing;"] ∧
      m.Retains (m.assignedDuring 16 ["s(); nothing;"]) last := by
  have hruns : ((Machine.start none .unlimited fun _ => 0).run 16 retainedSource).bind (fun r =>
      (r.2.session 16 ["s(); nothing;"]).map fun r' => (r.1.isNone, r.2.heap.frames.isRoot 1,
        r.2.heap.frames.find? 1 "a", r'.2.heap.frames.find? 1 "a")) =
      some (true, false, some .nil, some (.bool true)) := by cbv
  obtain ⟨⟨f?, m⟩, hrun, hrest⟩ := Option.bind_eq_some_iff.1 hruns
  obtain ⟨⟨entries, last⟩, hsession, hshown⟩ := Option.map_eq_some_iff.1 hrest
  simp only [Prod.mk.injEq, Option.isNone_iff_eq_none] at hshown
  obtain ⟨rfl, hlocal, hbefore, hafter⟩ := hshown
  have hretains := heap_retained.2.2.2.2 16 _ m last entries hsession
  have hassigned : (1, "a") ∈ m.assignedDuring 16 ["s(); nothing;"] := by
    by_contra hnot
    have hkept := hretains.heap.frames.values hlocal hbefore hnot
    rw [hafter] at hkept
    cases hkept
  exact ⟨m, entries, last, hrun, hsession, hlocal, hbefore, hafter, hassigned, hretains⟩

end Lox
