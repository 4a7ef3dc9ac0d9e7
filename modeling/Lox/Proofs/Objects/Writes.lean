import Lox.Proofs.Steps.Retained

/-! Instances and classes under the changes of a heap: a field has the value that was last written
to it, and a class has the methods that it was declared with. -/
namespace Lox

/-- A value that a field of an instance gets. -/
structure FieldWrite where
  id : InstanceId
  name : String
  value : Value

/-- The value that was written last to a field. -/
def lastWritten (writes : List FieldWrite) (id : InstanceId) (name : String) : Option Value :=
  (writes.reverse.find? fun w => w.id = id ∧ w.name = name).map (·.value)

theorem lastWritten_append (ws ws' : List FieldWrite) (id : InstanceId) (name : String) :
    lastWritten (ws ++ ws') id name = (lastWritten ws' id name).or (lastWritten ws id name) := by
  simp [lastWritten, List.find?_append, Option.map_or]

theorem lastWritten_singleton (w : FieldWrite) (id : InstanceId) (name : String) :
    lastWritten [w] id name = if w.id = id ∧ w.name = name then some w.value else none := by
  by_cases h : w.id = id ∧ w.name = name <;> simp [lastWritten, h]

/-- The method that a name means where there are several. -/
def lastNamed (methods : List (FunDecl Stmt)) (name : String) : Option (FunDecl Stmt) :=
  methods.reverse.find? (·.name = name)

theorem lastNamed_append_singleton (methods : List (FunDecl Stmt)) (decl : FunDecl Stmt)
    (name : String) : lastNamed (methods ++ [decl]) name =
      if name = decl.name then some decl else lastNamed methods name := by
  by_cases h : name = decl.name
  · simp [lastNamed, h]
  · simp [lastNamed, h, Ne.symm h]

namespace Heap

variable {h h' h'' : Heap} {ws ws' : List FieldWrite} {methods : List (FunDecl Stmt)}
  {frame : FrameId} {table : Bindings FunctionId} {c : ClassId}

/-! Classes. -/

/-- The table has the methods of a declaration, closed over `frame`. -/
def Tables (h : Heap) (methods : List (FunDecl Stmt)) (frame : FrameId)
    (table : Bindings FunctionId) : Prop :=
  ∀ name, (table.find? name).map (h.functions[·]?) =
    (lastNamed methods name).map fun decl => some ⟨decl, frame⟩

/-- The class has the methods of a declaration. -/
def Declares (h : Heap) (c : ClassId) (methods : List (FunDecl Stmt)) (frame : FrameId) : Prop :=
  h.Tables methods frame (h.classObject c).methods

theorem Tables.kept (ht : h.Tables methods frame table)
    (hf : ∀ {id : FunctionId} {f : Function}, h.functions[id]? = some f →
      h'.functions[id]? = some f) : h'.Tables methods frame table := by
  intro name
  have hname := ht name
  rw [← hname]
  cases hid : table.find? name with
  | none => rfl
  | some id =>
    rw [hid] at hname
    obtain ⟨decl, -, hdecl⟩ := Option.map_eq_some_iff.1 hname.symm
    have hold : h.functions[id]? = some ⟨decl, frame⟩ := hdecl.symm
    simp only [Option.map_some, hold, hf hold]

theorem tables_nil (h : Heap) (frame : FrameId) : h.Tables [] frame [] := fun _ => rfl

theorem getElem?_addFunction {f : Function} {id : FunctionId} {g : Function}
    (hg : h.functions[id]? = some g) : (h.addFunction f).2.functions[id]? = some g :=
  (Retains.addFunction h f).functions hg

theorem Tables.insert (ht : h.Tables methods frame table) (decl : FunDecl Stmt) :
    (h.addFunction ⟨decl, frame⟩).2.Tables (methods ++ [decl]) frame
      (table.insert decl.name (h.addFunction ⟨decl, frame⟩).1) := by
  intro name
  rw [Bindings.find?_insert, lastNamed_append_singleton]
  split
  · have hnew : (h.addFunction ⟨decl, frame⟩).2.functions[(h.addFunction ⟨decl, frame⟩).1]? =
        some ⟨decl, frame⟩ := Array.getElem?_push_size
    rw [Option.map_some, hnew, Option.map_some]
  · exact ht.kept getElem?_addFunction name

theorem tables_addMethods (rest : List (FunDecl Stmt)) (ht : h.Tables methods frame table) :
    (h.addMethods frame rest table).2.Tables (methods ++ rest) frame
      (h.addMethods frame rest table).1 := by
  induction rest generalizing h methods table with
  | nil => simpa [addMethods] using ht
  | cons decl rest ih => simpa [addMethods] using ih (ht.insert decl)

/-- Making methods adds functions and nothing else. -/
theorem addMethods_eq_functions (h : Heap) (frame : FrameId) (methods : List (FunDecl Stmt))
    (table : Bindings FunctionId) : (h.addMethods frame methods table).2 =
      { h with functions := (h.addMethods frame methods table).2.functions } := by
  induction methods generalizing h table with
  | nil => rfl
  | cons decl rest ih => exact ih (h.addFunction ⟨decl, frame⟩).2 _

/-- Every class has the methods of some declaration. -/
def AllDeclared (h : Heap) : Prop :=
  ∀ c < h.classes.size, ∃ methods frame, h.Declares c methods frame

theorem classObject_of_ge (hc : h.classes.size ≤ c) : h.classObject c = ⟨"", []⟩ := by
  rw [classObject, Array.getElem?_eq_none hc]
  rfl

/-- A place that holds no class is like a class without methods. -/
theorem AllDeclared.exists (hd : h.AllDeclared) (c : ClassId) :
    ∃ methods frame, h.Declares c methods frame := by
  rcases Nat.lt_or_ge c h.classes.size with hc | hc
  · exact hd c hc
  · refine ⟨[], 0, ?_⟩
    rw [Declares, classObject_of_ge hc]
    exact tables_nil h 0

theorem Retains.declares {assigned : FrameNames} (hr : h.Retains assigned h')
    (hc : c < h.classes.size) (hd : h.Declares c methods frame) :
    h'.Declares c methods frame := by
  have hclass := Array.getElem?_eq_getElem hc
  have hsame : h'.classObject c = h.classObject c := by
    rw [classObject, classObject, hr.classes hclass, hclass]
  rw [Declares, hsame]
  exact hd.kept hr.functions

theorem Retains.allDeclared {assigned : FrameNames} (hr : h.Retains assigned h')
    (hsame : h'.classes = h.classes) (hd : h.AllDeclared) : h'.AllDeclared := by
  intro c hc
  rw [hsame] at hc
  obtain ⟨methods, frame, hmethods⟩ := hd c hc
  exact ⟨methods, frame, hr.declares hc hmethods⟩

theorem Retains.classId {assigned : FrameNames} (hr : h.Retains assigned h') {id : InstanceId}
    (hid : id < h.instances.size) :
    id < h'.instances.size ∧ (h'.object id).classId = (h.object id).classId := by
  have hold := Array.getElem?_eq_getElem hid
  obtain ⟨fields, hnew, -⟩ := hr.objects hold
  refine ⟨(Array.getElem?_eq_some_iff.1 hnew).1, ?_⟩
  rw [object, object, hnew, hold]
  rfl

/-! Changes of a heap. -/

/-- The heap is changed step by step, with these writes to fields on the way. -/
inductive Edited : Heap → List FieldWrite → Heap → Prop
  | refl (h : Heap) : Edited h [] h
  | bind (h : Heap) (f : FrameId) (name : String) (v : Value) : Edited h [] (h.bind f name v)
  | addFrame (h : Heap) (outer : FrameId) : Edited h [] (h.addFrame outer).2
  | addFunction (h : Heap) (f : Function) : Edited h [] (h.addFunction f).2
  | addClass {h : Heap} {methods : List (FunDecl Stmt)} {frame : FrameId}
    {table : Bindings FunctionId} (name : String) : h.Tables methods frame table →
      Edited h [] (h.addClass ⟨name, table⟩).2
  | addInstance (h : Heap) (c : ClassId) : Edited h [] (h.addInstance c).2
  | setField {h : Heap} {id : InstanceId} (name : String) (v : Value) : id < h.instances.size →
    Edited h [⟨id, name, v⟩] (h.setField id name v)
  | trans {h h' h'' : Heap} {ws ws' : List FieldWrite} : Edited h ws h' → Edited h' ws' h'' →
    Edited h (ws ++ ws') h''

theorem object_setField (h : Heap) (id : InstanceId) (name : String) (v : Value) {i : InstanceId}
    (hi : i < h.instances.size) : (h.setField id name v).object i =
      if i = id then { h.object i with fields := (h.object i).fields.insert name v }
      else h.object i := by
  have hold := Array.getElem?_eq_getElem hi
  by_cases he : i = id
  · subst he
    simp [object, setField, Array.getElem?_modify, hold]
  · simp [object, setField, Array.getElem?_modify, he, Ne.symm he]

/-- Nothing happens to a field of an instance that was never made. -/
theorem setField_of_ge {h : Heap} {id : InstanceId} (name : String) (v : Value)
    (hid : h.instances.size ≤ id) : h.setField id name v = h := by
  have hsame : h.instances.modify id (fun i => { i with fields := i.fields.insert name v }) =
      h.instances := by
    refine Array.ext_getElem? fun i => ?_
    rw [Array.getElem?_modify]
    split
    next he =>
      rw [← he, Array.getElem?_eq_none hid]
      rfl
    next => rfl
  simp only [setField, hsame]

namespace Edited

/-- Two changes without writes. -/
theorem andThen (he : Edited h [] h') (he' : Edited h' [] h'') : Edited h [] h'' := he.trans he'

theorem addMethods (h : Heap) (frame : FrameId) (methods : List (FunDecl Stmt))
    (table : Bindings FunctionId) : Edited h [] (h.addMethods frame methods table).2 := by
  induction methods generalizing h table with
  | nil => exact .refl h
  | cons decl rest ih => exact (Edited.addFunction h ⟨decl, frame⟩).andThen (ih _ _)

theorem bindMethod (h : Heap) (method : FunctionId) (receiver : InstanceId) :
    Edited h [] (h.bindMethod method receiver).2 :=
  ((Edited.addFrame h _).andThen (.bind _ _ _ _)).andThen (.addFunction _ _)

theorem retains (he : Edited h ws h') : ∃ assigned, h.Retains assigned h' := by
  induction he with
  | refl h => exact ⟨∅, .refl h⟩
  | bind h f name v => exact ⟨_, .bind h f name v⟩
  | addFrame h outer => exact ⟨_, .addFrame h outer⟩
  | addFunction h f => exact ⟨_, .addFunction h f⟩
  | addClass name _ => exact ⟨_, .addClass _ _⟩
  | addInstance h c => exact ⟨_, .addInstance h c⟩
  | setField name v _ => exact ⟨_, .setField _ _ name v⟩
  | trans _ _ ih ih' =>
    obtain ⟨assigned, hr⟩ := ih
    obtain ⟨assigned', hr'⟩ := ih'
    exact ⟨_, hr.trans hr'⟩

/-- A field has the value last written to it, or else the one that it had. -/
theorem find?_fields (he : Edited h ws h') (id : InstanceId) (name : String) :
    (h'.object id).fields.find? name =
      (lastWritten ws id name).or ((h.object id).fields.find? name) := by
  induction he with
  | refl | bind | addFrame | addFunction | addClass => rfl
  | addInstance h c =>
    by_cases hid : id = h.instances.size
    · simp [object, Heap.addInstance, lastWritten, hid]
    · simp [object, Heap.addInstance, lastWritten, Array.getElem?_push, hid]
  | @setField h written field v hid =>
    rw [lastWritten_singleton]
    by_cases he : written = id
    · subst he
      rw [object_setField h written field v hid, if_pos rfl, Bindings.find?_insert]
      by_cases hn : field = name
      · simp [hn]
      · simp [hn, Ne.symm hn]
    · simp [object, Heap.setField, Array.getElem?_modify, he]
  | trans _ _ ih ih' => rw [ih', ih, lastWritten_append, Option.or_assoc]

theorem allDeclared (he : Edited h ws h') (hd : h.AllDeclared) : h'.AllDeclared := by
  induction he with
  | refl => exact hd
  | bind h f name v => exact (Retains.bind h f name v).allDeclared rfl hd
  | addFrame h outer => exact (Retains.addFrame h outer).allDeclared rfl hd
  | addFunction h f => exact (Retains.addFunction h f).allDeclared rfl hd
  | @addClass h methods frame table name ht =>
    intro c hc
    have hsize : c < h.classes.size + 1 := by simpa [Heap.addClass] using hc
    rcases Nat.lt_succ_iff_lt_or_eq.1 hsize with hlt | rfl
    · obtain ⟨methods', frame', hmethods⟩ := hd c hlt
      exact ⟨methods', frame', (Retains.addClass h _).declares hlt hmethods⟩
    · refine ⟨methods, frame, ?_⟩
      have hnew : (h.addClass ⟨name, table⟩).2.classObject h.classes.size = ⟨name, table⟩ := by
        simp [classObject, Heap.addClass]
      rw [Declares, hnew]
      exact ht
  | addInstance h c => exact (Retains.addInstance h c).allDeclared rfl hd
  | @setField h id name v hid => exact (Retains.setField h id name v).allDeclared rfl hd
  | trans _ _ ih ih' => exact ih' (ih hd)

end Edited
end Heap
end Lox
