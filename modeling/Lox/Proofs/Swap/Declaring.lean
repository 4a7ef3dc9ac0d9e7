import Lox.Proofs.Swap.Running

/-! What a declaration of a function or a class does at top level, and that two of them may change
places. -/
namespace Lox

/-! Two neighbouring blocks of a list that change places. -/

/-- Where the element `i` comes to if the blocks of `p` and of `q` elements behind the first `n`
change places. -/
def exchange (n p q i : Nat) : Nat :=
  if i < n ∨ n + p + q ≤ i then i else if i < n + p then i + q else i - p

theorem exchange_injective (n p q : Nat) : Function.Injective (exchange n p q) := by
  intro i j h
  unfold exchange at h
  split_ifs at h <;> omega

theorem exchange_of_lt {n i : Nat} (p q : Nat) (h : i < n) : exchange n p q i = i :=
  if_pos (.inl h)

theorem exchange_of_le {n p q i : Nat} (h : n + p + q ≤ i) : exchange n p q i = i :=
  if_pos (.inr h)

theorem exchange_first {n p i : Nat} (q : Nat) (h : i < p) :
    exchange n p q (n + i) = n + q + i := by
  unfold exchange
  split_ifs <;> omega

theorem exchange_second {n p q i : Nat} (h : i < q) : exchange n p q (n + p + i) = n + i := by
  unfold exchange
  split_ifs <;> omega

section
variable {α : Type} (xs ys zs : List α)

private theorem getElem?_middle {i : Nat} (h : i < ys.length) :
    (xs ++ ys ++ zs)[xs.length + i]? = ys[i]? := by
  rw [List.append_assoc, List.getElem?_append_right (Nat.le_add_right _ _),
    Nat.add_sub_cancel_left, List.getElem?_append_left h]

private theorem getElem?_last (i : Nat) :
    (xs ++ ys ++ zs)[xs.length + ys.length + i]? = zs[i]? := by
  rw [← List.length_append, List.getElem?_append_right (Nat.le_add_right _ _),
    Nat.add_sub_cancel_left]

theorem getElem?_exchange (i : Nat) :
    (xs ++ zs ++ ys)[exchange xs.length ys.length zs.length i]? = (xs ++ ys ++ zs)[i]? := by
  by_cases h₁ : i < xs.length
  · rw [exchange_of_lt _ _ h₁]
    simp only [List.append_assoc, List.getElem?_append_left h₁]
  · obtain ⟨j, rfl⟩ := Nat.exists_eq_add_of_le (Nat.le_of_not_lt h₁)
    by_cases h₂ : j < ys.length
    · rw [exchange_first _ h₂, getElem?_last, getElem?_middle xs ys zs h₂]
    · obtain ⟨k, rfl⟩ := Nat.exists_eq_add_of_le (Nat.le_of_not_lt h₂)
      rw [← Nat.add_assoc, getElem?_last]
      by_cases h₃ : k < zs.length
      · rw [exchange_second h₃, getElem?_middle xs zs ys h₃]
      · have hle : zs.length ≤ k := Nat.le_of_not_lt h₃
        rw [exchange_of_le (Nat.add_le_add_left hle _), List.getElem?_eq_none hle]
        refine List.getElem?_eq_none ?_
        simp only [List.length_append]
        omega

end

/-! Declarations. -/

namespace Stmt

/-- The name that a declaration of a function or a class declares. -/
def declares? : Stmt → Option String
  | function decl => some decl.name
  | classDecl name _ _ => some name
  | _ => none

/-- The functions that it makes in a frame. -/
def functionsIn (frame : FrameId) : Stmt → List Function
  | function decl => [⟨decl, frame⟩]
  | classDecl _ methods _ => methods.map (⟨·, frame⟩)
  | _ => []

end Stmt

/-- The methods of a class whose first one has the number `next`. -/
def methodTable (next : FunctionId) :
    List (FunDecl Stmt) → Bindings FunctionId → Bindings FunctionId
  | [], table => table
  | decl :: rest, table => methodTable (next + 1) rest (table.insert decl.name next)

theorem Heap.addMethods_eq (frame : FrameId) (methods : List (FunDecl Stmt)) (h : Heap)
    (table : Bindings FunctionId) :
    h.addMethods frame methods table =
      (methodTable h.functions.size methods table,
        { h with functions := h.functions ++ (methods.map (⟨·, frame⟩ : _ → Function)).toArray }) := by
  induction methods generalizing h table with
  | nil => simp [Heap.addMethods, methodTable]
  | cons decl rest ih =>
    have hpush : h.functions.push ⟨decl, frame⟩ ++ (rest.map (⟨·, frame⟩ : _ → Function)).toArray =
        h.functions ++ ((decl :: rest).map (⟨·, frame⟩ : _ → Function)).toArray := by simp
    simp only [Heap.addMethods, ih, methodTable, Heap.addFunction, Array.size_push, hpush]

theorem mapValues_methodTable {f : FunctionId → FunctionId} {next next' : FunctionId}
    {methods : List (FunDecl Stmt)} (h : ∀ i < methods.length, f (next + i) = next' + i)
    (table : Bindings FunctionId) :
    (methodTable next methods table).mapValues f = methodTable next' methods (table.mapValues f) := by
  induction methods generalizing next next' table with
  | nil => rfl
  | cons decl rest ih =>
    have hfirst : f next = next' := h 0 (Nat.zero_lt_succ _)
    have hrest : ∀ i < rest.length, f (next + 1 + i) = next' + 1 + i := by
      intro i hi
      have := h (i + 1) (Nat.succ_lt_succ hi)
      rwa [Nat.add_assoc, Nat.add_comm 1, Nat.add_assoc next', Nat.add_comm 1]
    rw [methodTable, methodTable, ih hrest, Bindings.mapValues_insert, hfirst]

namespace Stmt

/-- The classes that it makes when the next function has the number `next`. -/
def classesFrom (next : FunctionId) : Stmt → List ClassObject
  | classDecl name methods _ => [⟨name, methodTable next methods []⟩]
  | _ => []

/-- What its name stands for, if the next function and the next class have these numbers. -/
def madeValue (nextFunction : FunctionId) (nextClass : ClassId) : Stmt → Value
  | classDecl _ _ _ => .classObject nextClass
  | _ => .function nextFunction

theorem length_classesFrom (s : Stmt) (next next' : FunctionId) :
    (s.classesFrom next).length = (s.classesFrom next').length := by
  cases s <;> rfl

end Stmt

/-- The second machine is the first one after the declaration. -/
structure Machine.Declares (s : Stmt) (name : String) (m m' : Machine) : Prop where
  world : m'.toWorld = m.toWorld
  globals : m'.globals = m.globals
  current : m'.current = m.current
  size : m'.heap.frames.size = m.heap.frames.size
  links? (f : FrameId) : m'.heap.frames.links? f = m.heap.frames.links? f
  find? (f : FrameId) (other : String) : m'.heap.frames.find? f other =
    if f = m.current ∧ other = name then
      some (s.madeValue m.heap.functions.size m.heap.classes.size)
    else m.heap.frames.find? f other
  functions : m'.heap.functions = m.heap.functions ++ (s.functionsIn m.current).toArray
  classes : m'.heap.classes = m.heap.classes ++ (s.classesFrom m.heap.functions.size).toArray
  objects : m'.heap.instances = m.heap.instances

theorem execute_declares {s : Stmt} {name : String} {m : Machine} (fuel : Nat)
    (hname : s.declares? = some name) (hlt : m.current < m.heap.frames.size)
    (haccepts : m.heap.frames.accepts m.current name = true) :
    ∃ m', execute (fuel + 1) s m = .done .normal m' ∧ m.Declares s name m' := by
  cases s with
  | function decl =>
    cases hname
    refine ⟨Machine.bind { m with heap := (m.heap.addFunction ⟨decl, m.current⟩).2 } m.current
      decl.name (.function m.heap.functions.size), ?_, ?_⟩
    · simp only [execute, Action.bind_apply, Action.inspect, Machine.allocate, Machine.define,
        Heap.addFunction, haccepts, if_true]
      rfl
    · exact {
        world := rfl
        globals := rfl
        current := rfl
        size := Frames.size_bind _ _ _ _
        links? := fun f => Frames.links?_bind _ _ f _ _
        find? := fun f other => Frames.find?_bind hlt
        functions := by simp [Machine.bind, Heap.addFunction, Heap.bind, Stmt.functionsIn]
        classes := by simp [Machine.bind, Heap.addFunction, Heap.bind, Stmt.classesFrom]
        objects := rfl }
  | classDecl name methods line =>
    cases hname
    -- The name is bound twice, first to nil.
    have hbound : ((m.heap.frames.bind m.current name .nil).find? m.current name).isSome := by
      rw [Frames.find?_bind_self hlt]
      rfl
    have hlt' : m.current < (m.heap.frames.bind m.current name .nil).size := by
      rwa [Frames.size_bind]
    refine ⟨{ m with heap := {
      frames := (m.heap.frames.bind m.current name .nil).bind m.current name
        (.classObject m.heap.classes.size)
      functions := m.heap.functions ++ (methods.map (⟨·, m.current⟩ : _ → Function)).toArray
      classes := m.heap.classes.push ⟨name, methodTable m.heap.functions.size methods []⟩
      instances := m.heap.instances } }, ?_, ?_⟩
    · simp only [execute, Action.bind_apply, Action.inspect, Machine.allocate, Machine.define,
        haccepts, if_true, Machine.bind, Heap.bind, Heap.addMethods_eq, Heap.addClass,
        Machine.assignHere, hbound]
      rfl
    · exact {
        world := rfl
        globals := rfl
        current := rfl
        size := by simp only [Frames.size_bind]
        links? := fun f => by simp only [Frames.links?_bind]
        find? := fun f other => by
          rw [Frames.find?_bind hlt', Frames.find?_bind hlt]
          split
          · rfl
          · rfl
        functions := rfl
        classes := by simp [Stmt.classesFrom]
        objects := rfl }
  | _ => cases hname

/-! Two declarations, one after the other. -/

namespace Renumbering

/-- The new numbers if the declaration `a` is executed behind `b` and not in front of it. -/
def exchanging (m : Machine) (a b : Stmt) : Renumbering where
  functionId := exchange m.heap.functions.size (a.functionsIn m.current).length
    (b.functionsIn m.current).length
  classId := exchange m.heap.classes.size (a.classesFrom 0).length (b.classesFrom 0).length
  functionId_injective := exchange_injective _ _ _
  classId_injective := exchange_injective _ _ _

/-- What is there already keeps its number. -/
structure Fixes (r : Renumbering) (h : Heap) : Prop where
  functions {id : FunctionId} : id < h.functions.size → r.functionId id = id
  classes {id : ClassId} : id < h.classes.size → r.classId id = id

theorem exchanging_fixes (m : Machine) (a b : Stmt) : (exchanging m a b).Fixes m.heap where
  functions := exchange_of_lt _ _
  classes := exchange_of_lt _ _

namespace Fixes

open Region (whole whole_allows allowsAll_cons)

variable {r : Renumbering} {h : Heap} (hr : r.Fixes h)
include hr

theorem value {v : Value} (hv : whole.AllowsAll h v.places) : r.value v = v := by
  cases v with
  | function id =>
    have hid := whole_allows.1 (Region.allowsAll_singleton.1 hv)
    exact congrArg Value.function (hr.functions hid)
  | classObject id =>
    have hid := whole_allows.1 (Region.allowsAll_singleton.1 hv)
    exact congrArg Value.classObject (hr.classes hid)
  | _ => rfl

theorem find? (hh : whole.Held h) (f : FrameId) (name : String) :
    (h.frames.find? f name).map r.value = h.frames.find? f name := by
  cases hv : h.frames.find? f name with
  | none => rfl
  | some v =>
    have hf : whole.Allows h (.frame f) := whole_allows.2 (Frames.find?_eq_some_lt hv)
    exact congrArg some (hr.value (hh.find? hf hv))

theorem object (hh : whole.Held h) {id : InstanceId} {i : Instance}
    (hi : h.instances[id]? = some i) : r.object i = i := by
  have hid : whole.Allows h (.object id) :=
    whole_allows.2 (Array.getElem?_eq_some_iff.1 hi).1
  have hlinks : whole.AllowsAll h i.links := by
    have hclosed := hh.closed hid
    simpa only [Heap.links, Heap.object, hi, Option.getD_some] using hclosed
  obtain ⟨hclass, hfields⟩ := allowsAll_cons.1 hlinks
  have hsame : i.fields.mapValues r.value = i.fields := Bindings.mapValues_eq_self
    fun entry hentry => hr.value fun p hp => hfields p (List.mem_flatMap.2 ⟨entry, hentry, hp⟩)
  have hsameClass : r.classId i.classId = i.classId := hr.classes (whole_allows.1 hclass)
  simp only [Renumbering.object, hsame, hsameClass]

theorem classObject (hh : whole.Held h) {c : ClassObject} (hc : c ∈ h.classes.toList) :
    r.classObject c = c := by
  obtain ⟨id, hid⟩ := List.mem_iff_getElem?.1 hc
  rw [Array.getElem?_toList] at hid
  have hallowed : whole.Allows h (.classObject id) :=
    whole_allows.2 (Array.getElem?_eq_some_iff.1 hid).1
  have hlinks : whole.AllowsAll h (methodPlaces c.methods) := by
    have hclosed := hh.closed hallowed
    simpa only [Heap.links, Heap.classObject, hid, Option.getD_some] using hclosed
  have hsame : c.methods.mapValues r.functionId = c.methods := by
    refine Bindings.mapValues_eq_self fun entry hentry => ?_
    exact hr.functions (whole_allows.1 (hlinks _ (List.mem_map_of_mem hentry)))
  simp only [Renumbering.classObject, hsame]

end Fixes

theorem map_classesFrom {r : Renumbering} {next next' : FunctionId} {s : Stmt} {frame : FrameId}
    (h : ∀ i < (s.functionsIn frame).length, r.functionId (next + i) = next' + i) :
    (s.classesFrom next).map r.classObject = s.classesFrom next' := by
  cases s with
  | classDecl name methods line =>
    have hmethods : ∀ i < methods.length, r.functionId (next + i) = next' + i := by
      simpa [Stmt.functionsIn] using h
    simp only [Stmt.classesFrom, List.map_cons, List.map_nil, Renumbering.classObject,
      mapValues_methodTable hmethods]
    rfl
  | _ => rfl

theorem value_madeValue {r : Renumbering} {s : Stmt} {name : String} {frame : FrameId}
    {nextF nextF' : FunctionId} {nextC nextC' : ClassId} (hs : s.declares? = some name)
    (hf : ∀ i < (s.functionsIn frame).length, r.functionId (nextF + i) = nextF' + i)
    (hc : ∀ i < (s.classesFrom 0).length, r.classId (nextC + i) = nextC' + i) :
    r.value (s.madeValue nextF nextC) = s.madeValue nextF' nextC' := by
  cases s with
  | function decl => exact congrArg Value.function (hf 0 Nat.zero_lt_one)
  | classDecl name methods line => exact congrArg Value.classObject (hc 0 Nat.zero_lt_one)
  | _ => cases hs

end Renumbering

namespace Machine.Declares

open Renumbering (exchanging exchanging_fixes map_classesFrom value_madeValue)

variable {m ma mb mab mba : Machine} {a b : Stmt} {x y : String}

theorem functionCount (h : m.Declares a x ma) :
    ma.heap.functions.size = m.heap.functions.size + (a.functionsIn m.current).length := by
  simp [h.functions]

theorem classCount (h : m.Declares a x ma) :
    ma.heap.classes.size = m.heap.classes.size + (a.classesFrom 0).length := by
  simp [h.classes, a.length_classesFrom _ 0]

section Exchanged
variable (hx : a.declares? = some x) (hy : b.declares? = some y) (ha : m.Declares a x ma)
  (hab : ma.Declares b y mab) (hb : m.Declares b y mb) (hba : mb.Declares a x mba)

include hb in
theorem functionId_first : ∀ i < (a.functionsIn m.current).length,
    (exchanging m a b).functionId (m.heap.functions.size + i) = mb.heap.functions.size + i :=
  fun _ hi => hb.functionCount ▸ exchange_first _ hi

include ha in
theorem functionId_second : ∀ i < (b.functionsIn m.current).length,
    (exchanging m a b).functionId (ma.heap.functions.size + i) = m.heap.functions.size + i :=
  fun _ hi => ha.functionCount ▸ exchange_second hi

include hb in
theorem classId_first : ∀ i < (a.classesFrom 0).length,
    (exchanging m a b).classId (m.heap.classes.size + i) = mb.heap.classes.size + i :=
  fun _ hi => hb.classCount ▸ exchange_first _ hi

include ha in
theorem classId_second : ∀ i < (b.classesFrom 0).length,
    (exchanging m a b).classId (ma.heap.classes.size + i) = m.heap.classes.size + i :=
  fun _ hi => ha.classCount ▸ exchange_second hi

include hx hy ha hab hb hba

theorem exchanged_frames (hm : m.Sound) (hne : x ≠ y) :
    mab.heap.frames.Renumbered (exchanging m a b) mba.heap.frames where
  size := by rw [hba.size, hb.size, hab.size, ha.size]
  links? f := by rw [hba.links?, hb.links?, hab.links?, ha.links?]
  find? f other := by
    have hva := value_madeValue hx hb.functionId_first hb.classId_first
    have hvb := value_madeValue hy ha.functionId_second ha.classId_second
    have hold := (exchanging_fixes m a b).find? hm.held f other
    rw [hba.find?, hb.find?, hab.find?, ha.find?, hb.current, ha.current]
    by_cases hfx : f = m.current ∧ other = x
    · have hfy : ¬(f = m.current ∧ other = y) := fun h => hne (hfx.2.symm.trans h.2)
      rw [if_pos hfx, if_neg hfy, if_pos hfx, Option.map_some, hva]
    · by_cases hfy : f = m.current ∧ other = y
      · rw [if_neg hfx, if_pos hfy, if_pos hfy, Option.map_some, hvb]
      · rw [if_neg hfx, if_neg hfy, if_neg hfy, if_neg hfx, hold]

omit hx hy in
theorem exchanged_functions (id : FunctionId) :
    mba.heap.functions[(exchanging m a b).functionId id]? = mab.heap.functions[id]? := by
  have h := getElem?_exchange m.heap.functions.toList (a.functionsIn m.current)
    (b.functionsIn m.current) id
  rw [← Array.getElem?_toList, ← Array.getElem?_toList, hba.functions, hb.functions, hab.functions,
    ha.functions, hb.current, ha.current]
  simp only [Array.toList_append]
  exact h

omit hx hy in
theorem exchanged_classes (hm : m.Sound) (id : ClassId) :
    mba.heap.classes[(exchanging m a b).classId id]? =
      mab.heap.classes[id]?.map (exchanging m a b).classObject := by
  have hold : m.heap.classes.toList.map (exchanging m a b).classObject = m.heap.classes.toList :=
    (List.map_congr_left fun c hc => (exchanging_fixes m a b).classObject hm.held hc).trans
      (List.map_id _)
  have hca : (a.classesFrom m.heap.functions.size).map (exchanging m a b).classObject =
      a.classesFrom mb.heap.functions.size := map_classesFrom hb.functionId_first
  have hcb : (b.classesFrom ma.heap.functions.size).map (exchanging m a b).classObject =
      b.classesFrom m.heap.functions.size := map_classesFrom ha.functionId_second
  have h := getElem?_exchange m.heap.classes.toList (a.classesFrom mb.heap.functions.size)
    (b.classesFrom m.heap.functions.size) id
  rw [← Array.getElem?_toList, ← Array.getElem?_toList, ← List.getElem?_map, hba.classes,
    hb.classes, hab.classes, ha.classes]
  simp only [Array.toList_append, List.map_append, hold, hca, hcb]
  rw [← h, a.length_classesFrom _ 0, b.length_classesFrom _ 0]
  rfl

/-- Of two declarations of different names either may come first. -/
theorem exchanged (hm : m.Sound) (hne : x ≠ y) : mab.Renumbered (exchanging m a b) mba where
  world := by rw [hba.world, hb.world, hab.world, ha.world]
  globals := by rw [hba.globals, hb.globals, hab.globals, ha.globals]
  current := by rw [hba.current, hb.current, hab.current, ha.current]
  heap := {
    frames := exchanged_frames hx hy ha hab hb hba hm hne
    functionCount := by
      rw [hba.functionCount, hb.functionCount, hab.functionCount, ha.functionCount, ha.current,
        hb.current, Nat.add_right_comm]
    functions := exchanged_functions ha hab hb hba
    newFunction := fun {id} hid => by
      rw [hab.functionCount, ha.functionCount, ha.current] at hid
      exact exchange_of_le hid
    classCount := by
      rw [hba.classCount, hb.classCount, hab.classCount, ha.classCount, Nat.add_right_comm]
    classes := exchanged_classes ha hab hb hba hm
    newClass := fun {id} hid => by
      rw [hab.classCount, ha.classCount] at hid
      exact exchange_of_le hid
    objects := by
      have hold : m.heap.instances.map (exchanging m a b).object = m.heap.instances := by
        refine Array.ext_getElem? fun id => ?_
        rw [Array.getElem?_map]
        cases hi : m.heap.instances[id]? with
        | none => rfl
        | some i => exact congrArg some ((exchanging_fixes m a b).object hm.held hi)
      rw [hba.objects, hb.objects, hab.objects, ha.objects, hold] }

end Exchanged

end Machine.Declares
end Lox
