import Lox.Proofs.Objects.Writes

/-! Evaluation with a log of the writes to fields, and of the heap after every step. -/
namespace Lox

variable {α β : Type}

/-- What one step of an evaluation wrote to fields, and the heap that it left. -/
structure Moment where
  writes : List FieldWrite
  heap : Heap

def writesOf (moments : List Moment) : List FieldWrite := moments.flatMap (·.writes)

/-! Logs that account for the changes of a heap. -/

namespace Heap

/-- Every moment follows from the one before it. -/
def Passes (h : Heap) : List Moment → Prop
  | [] => True
  | now :: rest => h.Edited now.writes now.heap ∧ now.heap.Passes rest

/-- The heap at the end of a log. -/
def after (h : Heap) : List Moment → Heap
  | [] => h
  | now :: rest => now.heap.after rest

theorem after_append (h : Heap) (before rest : List Moment) :
    h.after (before ++ rest) = (h.after before).after rest := by
  induction before generalizing h with
  | nil => rfl
  | cons now before ih => exact ih now.heap

theorem passes_append {h : Heap} {before rest : List Moment} :
    h.Passes (before ++ rest) ↔ h.Passes before ∧ (h.after before).Passes rest := by
  induction before generalizing h with
  | nil => simp only [List.nil_append, Passes, after, true_and]
  | cons now before ih =>
    simp only [List.cons_append, Passes, ih, after, and_assoc]

theorem Passes.edited {h : Heap} {moments : List Moment} (hp : h.Passes moments) :
    h.Edited (writesOf moments) (h.after moments) := by
  induction moments generalizing h with
  | nil => exact .refl h
  | cons now rest ih => exact hp.1.trans (ih hp.2)

end Heap

/-! The fields that a step writes. -/

/-- The machine with instances that have no fields. -/
def Machine.withoutFields (m : Machine) : Machine :=
  { m with heap :=
      { m.heap with instances := m.heap.instances.map fun i => { i with fields := [] } } }

/-- The fields of all instances. -/
def Heap.fields (h : Heap) : List FieldWrite :=
  (List.range h.instances.size).flatMap fun id =>
    (h.object id).fields.map fun entry => ⟨id, entry.1, entry.2⟩

/-- The writes of a single step to fields: what it leaves in them where they were empty. -/
def Action.fieldWrites (x : Action Machine α) (m : Machine) : List FieldWrite :=
  (x m.withoutFields).state?.elim [] (·.heap.fields)

/-- Without a write to a field the heap changes only in other ways. -/
def Action.LeavesFields (x : Action Machine α) : Prop :=
  ∀ m, ∀ m' ∈ (x m).state?, m.heap.Edited [] m'.heap

theorem Machine.withoutFields_fields (m : Machine) (id : InstanceId) :
    (m.withoutFields.heap.object id).fields = [] := by
  cases h : m.heap.instances[id]? <;> simp [Heap.object, Machine.withoutFields, h]

theorem Heap.fields_eq_nil {h : Heap} (hf : ∀ id, (h.object id).fields = []) : h.fields = [] := by
  simp [Heap.fields, hf]

theorem Bindings.eq_nil_of_find? {γ : Type} {b : Bindings γ} (h : ∀ name, b.find? name = none) :
    b = [] := by
  cases b with
  | nil => rfl
  | cons entry rest =>
    have hfirst := h entry.1
    simp [Bindings.find?] at hfirst

namespace Action

/-- An action that makes instances at most writes no field. -/
theorem fieldWrites_eq_nil {x : Action Machine α}
    (hx : ∀ m, ∀ m' ∈ (x m).state?, ∀ id name,
      (m'.heap.object id).fields.find? name = (m.heap.object id).fields.find? name)
    (m : Machine) : x.fieldWrites m = [] := by
  unfold fieldWrites
  cases hs : (x m.withoutFields).state? with
  | none => rfl
  | some m' =>
    refine Heap.fields_eq_nil fun id => Bindings.eq_nil_of_find? fun name => ?_
    rw [hx _ m' hs, m.withoutFields_fields]
    rfl

theorem LeavesFields.fieldWrites_eq_nil {x : Action Machine α} (hx : x.LeavesFields)
    (m : Machine) : x.fieldWrites m = [] :=
  Action.fieldWrites_eq_nil (fun m m' hm' id name => (hx m m' hm').find?_fields id name) m

private theorem flatMap_range_single (n id : Nat) (w : FieldWrite) :
    ((List.range n).flatMap fun i => if i = id then [w] else []) = if id < n then [w] else [] := by
  induction n with
  | zero => rfl
  | succ n ih =>
    rw [List.range_succ, List.flatMap_append, ih, List.flatMap_singleton]
    rcases Nat.lt_trichotomy id n with h | rfl | h
    · simp [h, Nat.ne_of_gt h, Nat.lt_succ_of_lt h]
    · simp
    · simp [Nat.not_lt_of_gt h, Nat.ne_of_lt h, Nat.not_lt_of_ge (Nat.succ_le_of_lt h)]

/-- A write to a field is noted as such, if there is an instance that has the field. -/
theorem fieldWrites_setField (m : Machine) (id : InstanceId) (name : String) (v : Value) :
    (Machine.setField id name v).fieldWrites m =
      if id < m.heap.instances.size then [⟨id, name, v⟩] else [] := by
  let h := m.withoutFields.heap
  have hsize : (h.setField id name v).instances.size = m.heap.instances.size := by
    simp [h, Heap.setField, Machine.withoutFields]
  have hfields (i : InstanceId) (hi : i < m.heap.instances.size) :
      ((h.setField id name v).object i).fields = if i = id then [(name, v)] else [] := by
    have hi' : i < h.instances.size := by simpa [h, Machine.withoutFields] using hi
    rw [Heap.object_setField h id name v hi']
    split
    · change (h.object i).fields.insert name v = _
      rw [m.withoutFields_fields]
      rfl
    · exact m.withoutFields_fields i
  change (h.setField id name v).fields = _
  rw [Heap.fields, hsize, ← flatMap_range_single]
  refine List.flatMap_congr fun i hi => ?_
  rw [hfields i (List.mem_range.1 hi)]
  by_cases he : i = id
  · simp [he]
  · simp [he]

end Action

/-! The log of an evaluation. -/

/-- An action that notes its moments. -/
def Logging (α : Type) : Type := Machine → List Moment × Answer Machine α

namespace Logging

protected def pure (a : α) : Logging α := fun m => ([], .done a m)

protected def bind (x : Logging α) (f : α → Logging β) : Logging β := fun m =>
  match x m with
  | (moments, .done a m') => (moments ++ (f a m').1, (f a m').2)
  | (moments, .failed d m') => (moments, .failed d m')
  | (moments, .outOfFuel) => (moments, .outOfFuel)

instance : Monad Logging where
  pure := Logging.pure
  bind := Logging.bind

theorem bind_apply (x : Logging α) (f : α → Logging β) (m : Machine) :
    (x >>= f) m = match x m with
      | (moments, .done a m') => (moments ++ (f a m').1, (f a m').2)
      | (moments, .failed d m') => (moments, .failed d m')
      | (moments, .outOfFuel) => (moments, .outOfFuel) := rfl

/-- Every single step is a moment. -/
def instrument : Instrument Logging where
  fuelSpent := fun _ => ([], .outOfFuel)
  step x _ := fun m => ((x m).state?.toList.map fun m' => ⟨x.fieldWrites m, m'.heap⟩, x m)
  inFrame frame x := fun m =>
    let r := x { m with current := frame }
    (r.1, r.2.onState fun m' => { m' with current := m.current })
  asCall line x := fun m =>
    if m.atLimit then ([], .failed ⟨line, .runtime .callsTooDeep⟩ m)
    else
      let r := x { m with toWorld := m.enterCall }
      (r.1, r.2.onState fun m' => { m' with toWorld := m'.leaveCall })

/-- What is logged does what it does otherwise. -/
theorem instrument_matches : instrument.Matches fun _ x y => ∀ m, (x m).2 = y m where
  fuelSpent _ := rfl
  pure _ _ := rfl
  step _ _ := rfl
  bind {_ _ x y f g} hx hf m := by
    rw [bind_apply, Lox.Action.bind_apply, ← hx m]
    rcases x m with ⟨moments, answer⟩
    cases answer with
    | done a m' => exact hf a m'
    | failed d m' => rfl
    | outOfFuel => rfl
  inFrame {_} frame {x y} hx m := by
    rw [Machine.inFrame_apply, ← hx]
    rfl
  asCall {_} line {x y} hx m := by
    rw [Machine.asCall_apply]
    simp only [instrument]
    split
    · rfl
    · rw [← hx]

/-- From this machine, the log accounts for all changes of the heap. -/
def AccountsAt (x : Logging α) (m : Machine) : Prop :=
  m.heap.Passes (x m).1 ∧ ∀ m' ∈ (x m).2.state?, m'.heap = m.heap.after (x m).1

def Accounts (x : Logging α) : Prop := ∀ m, x.AccountsAt m

namespace AccountsAt

theorem step {x : Action Machine α} (h : Step x) {m : Machine}
    (hx : ∀ m' ∈ (x m).state?, m.heap.Edited (x.fieldWrites m) m'.heap) :
    (instrument.step x h).AccountsAt m := by
  simp only [AccountsAt, instrument]
  cases hs : (x m).state? with
  | none =>
    refine ⟨trivial, fun m' hm' => ?_⟩
    cases hm'
  | some last =>
    refine ⟨⟨hx last hs, trivial⟩, fun m' hm' => ?_⟩
    cases hm'
    rfl

theorem bind {x : Logging α} {f : α → Logging β} {m : Machine} (hx : x.AccountsAt m)
    (hf : ∀ a m', (x m).2 = .done a m' → (f a).AccountsAt m') : (x >>= f).AccountsAt m := by
  unfold AccountsAt at hx ⊢
  rw [bind_apply]
  generalize hr : x m = r at hx hf
  rcases r with ⟨moments, answer⟩
  cases answer with
  | done a mid =>
    obtain ⟨hpasses, hlast⟩ := hf a mid rfl
    have hmid : mid.heap = m.heap.after moments := hx.2 mid rfl
    rw [hmid] at hpasses hlast
    refine ⟨Heap.passes_append.2 ⟨hx.1, hpasses⟩, fun m' hm' => ?_⟩
    rw [Heap.after_append]
    exact hlast m' hm'
  | failed d mid => exact hx
  | outOfFuel => exact hx

end AccountsAt

namespace Accounts

theorem pure (a : α) : Accounts (Pure.pure a) := by
  intro m
  refine ⟨trivial, fun m' hm' => ?_⟩
  cases hm'
  rfl

theorem fuelSpent : Accounts (instrument.fuelSpent : Logging α) :=
  fun _ => ⟨trivial, fun _ hm' => absurd hm' nofun⟩

theorem step {x : Action Machine α} (h : Step x) (hx : x.LeavesFields) :
    (instrument.step x h).Accounts := by
  intro m
  refine .step h fun m' hm' => ?_
  rw [hx.fieldWrites_eq_nil]
  exact hx m m' hm'

theorem bind {x : Logging α} {f : α → Logging β} (hx : x.Accounts) (hf : ∀ a, (f a).Accounts) :
    (x >>= f).Accounts :=
  fun m => (hx m).bind fun a m' _ => hf a m'

theorem inFrame (frame : FrameId) {x : Logging α} (hx : x.Accounts) :
    (instrument.inFrame frame x).Accounts := by
  intro m
  obtain ⟨hpasses, hlast⟩ := hx { m with current := frame }
  refine ⟨hpasses, fun m' hm' => ?_⟩
  obtain ⟨last, hmem, rfl⟩ := Answer.mem_state?_onState.1 hm'
  exact hlast last hmem

theorem asCall (line : Nat) {x : Logging α} (hx : x.Accounts) :
    (instrument.asCall line x).Accounts := by
  intro m
  simp only [AccountsAt, instrument]
  split
  · refine ⟨trivial, fun m' hm' => ?_⟩
    cases hm'
    rfl
  · obtain ⟨hpasses, hlast⟩ := hx { m with toWorld := m.enterCall }
    refine ⟨hpasses, fun m' hm' => ?_⟩
    obtain ⟨last, hmem, rfl⟩ := Answer.mem_state?_onState.1 hm'
    exact hlast last hmem

end Accounts
end Logging

/-! The single steps. -/

namespace Action.LeavesFields

theorem of_same {x : Action Machine α} (hx : ∀ m, ∀ m' ∈ (x m).state?, m'.heap = m.heap) :
    x.LeavesFields := by
  intro m m' hm'
  rw [hx m m' hm']
  exact .refl _

theorem fail (line : Nat) (f : Fault) : (Action.fail line f : Action Machine α).LeavesFields :=
  .of_same fun _ _ hm' => by
    cases hm'
    rfl

theorem pure (a : α) : (Pure.pure a : Action Machine α).LeavesFields :=
  .of_same fun _ _ hm' => by
    cases hm'
    rfl

theorem look (f : Heap → FrameId → α) :
    (Action.inspect fun m : Machine => f m.heap m.current).LeavesFields :=
  .of_same fun _ _ hm' => by
    cases hm'
    rfl

theorem lift (line : Nat) (r : Except RuntimeFault α) :
    (Action.lift line r : Action Machine α).LeavesFields := by
  cases r with
  | ok a => exact pure a
  | error f => exact fail line _

theorem finish (op : BinaryOp) (v w : Value) (line : Nat) :
    (op.finish v w line : Action Machine Value).LeavesFields := by
  cases op with
  | strict op => exact lift line _
  | or | and => exact pure w

theorem allocate {f : Heap → α × Heap} (hf : ∀ h : Heap, h.Edited [] (f h).2) :
    (Machine.allocate f).LeavesFields := by
  intro m m' hm'
  cases hm'
  exact hf m.heap

theorem read (o : Occurrence) (line : Nat) : (Machine.read o line).LeavesFields := by
  refine .of_same fun m m' hm' => ?_
  unfold Machine.read at hm'
  split at hm' <;> cases hm' <;> rfl

theorem write (o : Occurrence) (v : Value) (line : Nat) :
    (Machine.write o v line).LeavesFields := by
  intro m m' hm'
  unfold Machine.write at hm'
  split at hm'
  next frame _ =>
    cases hm'
    exact .bind m.heap frame o.name v
  next =>
    cases hm'
    exact .refl _

theorem define (name : String) (v : Value) (line : Nat) :
    (Machine.define name v line).LeavesFields := by
  intro m m' hm'
  unfold Machine.define at hm'
  split at hm'
  · cases hm'
    exact .bind m.heap m.current name v
  · cases hm'
    exact .refl _

theorem assignHere (name : String) (v : Value) : (Machine.assignHere name v).LeavesFields := by
  intro m m' hm'
  unfold Machine.assignHere at hm'
  split at hm'
  · cases hm'
    exact .bind m.heap m.current name v
  · cases hm'
    exact .refl _

theorem defineAll (frame : FrameId) (entries : List (String × Value)) :
    (Machine.defineAll frame entries).LeavesFields := by
  induction entries with
  | nil => exact pure ()
  | cons entry rest ih =>
    intro m m' hm'
    simp only [Machine.defineAll] at hm'
    split at hm'
    · exact (Heap.Edited.bind m.heap frame entry.1 entry.2).andThen (ih _ m' hm')
    · exact ih m m' hm'

theorem property (id : InstanceId) (name : String) (line : Nat) :
    (Machine.property id name line).LeavesFields := by
  intro m m' hm'
  unfold Machine.property at hm'
  rw [bind_apply] at hm'
  simp only [Action.inspect] at hm'
  cases hp : m.heap.property? id name with
  | none =>
    rw [hp] at hm'
    cases hm'
    exact .refl _
  | some found =>
    rw [hp] at hm'
    cases found with
    | field v =>
      cases hm'
      exact .refl _
    | method method =>
      cases hm'
      exact .bindMethod m.heap method id

theorem print (text : String) : (Machine.print text).LeavesFields := by
  refine .of_same fun m m' hm' => ?_
  unfold Machine.print at hm'
  simp only at hm'
  split at hm' <;> cases hm' <;> rfl

theorem tick : Machine.tick.LeavesFields :=
  .of_same fun _ _ hm' => by
    cases hm'
    rfl

end Action.LeavesFields

namespace Logging.Accounts

theorem setField (id : InstanceId) (name : String) (v : Value) :
    (instrument.step (Machine.setField id name v) (.setField id name v)).Accounts := by
  intro m
  refine .step _ fun m' hm' => ?_
  cases hm'
  rw [Action.fieldWrites_setField]
  split
  next hid => exact .setField name v hid
  next hid =>
    rw [show ({ m with heap := m.heap.setField id name v } : Machine).heap = m.heap from
      Heap.setField_of_ge name v (Nat.le_of_not_lt hid)]
    exact .refl _

/-- The class that a declaration makes has its methods, since the table is the one just made. -/
theorem classDecl (fuel : Nat) (name : String) (methods : List (FunDecl Stmt)) (line : Nat) :
    (instrument.execute (fuel + 1) (.classDecl name methods line)).Accounts := by
  refine .bind (.step _ (.define name .nil line)) fun _ =>
    .bind (.step _ (.look fun _ current => current)) fun frame m => ?_
  have hmethods := Accounts.step (.addMethods frame methods [])
    (.allocate fun h => .addMethods h frame methods [])
  refine .bind (hmethods m) fun table mid hmid => ?_
  have htable : mid.heap.Tables methods frame table := by
    cases hmid
    exact Heap.tables_addMethods methods (Heap.tables_nil m.heap frame)
  have hnone : (Machine.allocate (·.addClass ⟨name, table⟩)).fieldWrites mid = [] :=
    Action.fieldWrites_eq_nil (fun m m' hm' id name => by cases hm'; rfl) mid
  refine .bind (.step _ fun m' hm' => ?_) fun id last _ =>
    Accounts.bind (.step _ (.assignHere name _)) (fun _ => .pure _) last
  cases hm'
  rw [hnone]
  exact .addClass name htable

theorem composes : instrument.Composes fun _ x _ => x.Accounts where
  fuelSpent := fuelSpent
  pure := pure
  fail line f := step _ (.fail line f)
  lift line r := step _ (.lift line r)
  finish op v w line := step _ (.finish op v w line)
  look f := step _ (.look f)
  read o line := step _ (.read o line)
  write o v line := step _ (.write o v line)
  property id name line := step _ (.property id name line)
  setField := setField
  define name v line := step _ (.define name v line)
  defineAll frame entries := step _ (.defineAll frame entries)
  addFrame outer := step _ (.allocate fun h => .addFrame h outer)
  addFunction f := step _ (.allocate fun h => .addFunction h f)
  addInstance id := step _ (.allocate fun h => .addInstance h id)
  bindMethod method receiver := step _ (.allocate fun h => .bindMethod h method receiver)
  print text := step _ (.print text)
  tick := step _ .tick
  classDecl := classDecl
  bind := bind
  inFrame frame _ _ hx := inFrame frame hx
  asCall line _ _ hx := asCall line hx

end Logging.Accounts

/-! Programs and sessions. -/

namespace Machine

/-- The log of a program. -/
def momentsOf (fuel : Nat) (program : List Stmt) (m : Machine) : List Moment :=
  (Logging.instrument.executeProgram fuel program m).1

/-- The log of the sources of a session. -/
def momentsDuring (fuel : Nat) : List String → Machine → List Moment
  | [], _ => []
  | source :: rest, m =>
    (match compile source with
      | .ok program => m.momentsOf fuel program
      | .error _ => []) ++
    match m.run fuel source with
    | some (_, m') => m'.momentsDuring fuel rest
    | none => []

variable {m m' : Machine} {fuel : Nat}

theorem passes_momentsOf (program : List Stmt) : m.heap.Passes (m.momentsOf fuel program) :=
  (Logging.Accounts.composes.executeProgram fuel program m).1

theorem after_momentsOf {program : List Stmt} {d? : Option Diagnostic}
    (h : m.interpret fuel program = some (d?, m')) :
    m'.heap = m.heap.after (m.momentsOf fuel program) := by
  have hlast := (Logging.Accounts.composes.executeProgram fuel program m).2
  rw [Logging.instrument_matches.composes.executeProgram fuel program m] at hlast
  obtain ⟨hr, -⟩ | ⟨d, last, hr, -, rfl⟩ := interpret_eq_some.1 h
  · rw [hr] at hlast
    exact hlast _ rfl
  · rw [hr] at hlast
    exact hlast last rfl

theorem passes_momentsDuring (sources : List String) :
    m.heap.Passes (m.momentsDuring fuel sources) := by
  induction sources generalizing m with
  | nil => trivial
  | cons source rest ih =>
    rw [momentsDuring]
    unfold run
    cases compile source with
    | error f => exact ih
    | ok program =>
      rw [Heap.passes_append]
      refine ⟨passes_momentsOf program, ?_⟩
      cases hr : m.interpret fuel program with
      | none =>
        simp only [hr]
        trivial
      | some r =>
        obtain ⟨d?, m'⟩ := r
        rw [← after_momentsOf hr]
        simp only [hr]
        exact ih

theorem after_momentsDuring {sources : List String} {entries : List Entry}
    (h : m.session fuel sources = some (entries, m')) :
    m'.heap = m.heap.after (m.momentsDuring fuel sources) := by
  induction sources generalizing m entries with
  | nil =>
    cases h
    rfl
  | cons source rest ih =>
    obtain ⟨f?, mid, others, hrun, hothers, -⟩ := session_cons_eq_some.1 h
    rw [ih hothers, momentsDuring, hrun, Heap.after_append]
    obtain ⟨f, hc, -, rfl⟩ | ⟨program, d?, hc, hinterpret, -⟩ := run_eq_some.1 hrun
    · rw [hc]
      rfl
    · rw [hc, after_momentsOf hinterpret]

end Machine
end Lox
