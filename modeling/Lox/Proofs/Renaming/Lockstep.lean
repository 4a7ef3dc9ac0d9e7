import Lox.Proofs.Lexical.Actions
import Lox.Proofs.Lexical.Related
import Lox.Proofs.Renaming.Written

/-! Two runs of code that is equal but for the names of local variables, step by step: their stores
differ only in the code of functions and in what the names around it are called. -/
namespace Lox.Lexical
open Lox.Action

variable {α β : Type} {x y : String} {R R' : Naming}

/-! Visible names. -/

/-- Names that mean the same have the same cell, and those without one are the same. -/
structure Env.Renamed (x y : String) (R : Naming) (env env' : Env) : Prop where
  within : R.Within x y
  top_iff : env' = .top ↔ env = .top
  found {n n' : String} : R n n' → env'.find? n' = env.find? n
  global {n n' : String} : R n n' → env.find? n = none → n' = n

namespace Env.Renamed

variable {env env' : Env}

theorem refl (env : Env) : env.Renamed x y Eq env where
  within := Naming.within_eq
  top_iff := Iff.rfl
  found := by rintro n _ rfl; rfl
  global := by rintro n _ rfl _; rfl

theorem enter (h : env.Renamed x y R env') : env.enter.Renamed x y R env'.enter where
  within := h.within
  top_iff := iff_of_false env'.enter_ne_top env.enter_ne_top
  found hn := by rw [Env.find?_enter, Env.find?_enter, h.found hn]
  global hn hg := h.global hn (env.find?_enter _ ▸ hg)

theorem extend (h : env.Renamed x y R env') {a b : String} (hab : Naming.Binds x y a b)
    (htop : env = .top → b = a) (c : Cell) :
    (env.extend a c).Renamed x y (R.declare a b) (env'.extend b c) where
  within := h.within.declare hab
  top_iff := by
    have hiff := h.top_iff
    cases env <;> cases env' <;> simp_all [Env.extend]
  found {n n'} hn := by
    rcases hn with ⟨rfl, rfl⟩ | ⟨hne, hne', hn⟩
    · by_cases ht : env = .top
      · rw [ht, h.top_iff.2 ht]
        rfl
      · rw [Env.find?_extend_self ht, Env.find?_extend_self (h.top_iff.not.2 ht)]
    · rw [Env.find?_extend_ne env hne, Env.find?_extend_ne env' hne', h.found hn]
  global {n n'} hn hg := by
    rcases hn with ⟨rfl, rfl⟩ | ⟨hne, -, hn⟩
    · apply htop
      by_contra ht
      rw [Env.find?_extend_self ht] at hg
      cases hg
    · exact h.global hn (env.find?_extend_ne hne c ▸ hg)

/-- Inside a method, which sees the receiver on both sides as `this`. -/
theorem receiver (h : env.Renamed x y R env') (hy : y ≠ "this") (c : Cell) :
    (env.enter.extend "this" c).Renamed x y R (env'.enter.extend "this" c) := by
  have hiff {n n' : String} (hn : R n n') : n' = "this" ↔ n = "this" :=
    (h.within n n' hn).this_iff hy
  have hin := h.enter.extend (.kept "this") (fun _ => rfl) c
  have hdeclare {n n' : String} (hn : R n n') : R.declare "this" "this" n n' := by
    by_cases hthis : n = "this"
    · exact .inl ⟨hthis, (hiff hn).2 hthis⟩
    · exact .inr ⟨hthis, (hiff hn).not.2 hthis, hn⟩
  exact ⟨h.within, hin.top_iff, fun hn => hin.found (hdeclare hn),
    fun hn hg => hin.global (hdeclare hn) hg⟩

end Env.Renamed

/-! Stores. -/

/-- The same function with other names for local variables. -/
inductive Closure.Renamed (x y : String) (c c' : Closure) : Prop
  | mk {R : Naming} : FunctionRenamed x y R c.decl c'.decl → c.env.Renamed x y R c'.env →
    Closure.Renamed x y c c'

theorem Closure.Renamed.refl (c : Closure) : c.Renamed x y c :=
  .mk (.refl c.decl fun n _ => Naming.eq_keeps n) (.refl c.env)

theorem Closure.Renamed.name_eq {c c' : Closure} (h : c.Renamed x y c') :
    c'.decl.name = c.decl.name := by
  cases h with
  | mk hd _ => exact hd.name_eq

theorem Closure.Renamed.arity_eq {c c' : Closure} (h : c.Renamed x y c') :
    c'.decl.params.length = c.decl.params.length := by
  cases h with
  | mk hd _ => exact hd.arity_eq

namespace Store

/-- The same store but for the names in functions. -/
abbrev Renamed (x y : String) (s s' : Store) : Prop := s.Related (Closure.Renamed x y) s'

/-- The functions and the classes of the one are still in the other. -/
structure Grows (s t : Store) : Prop where
  functions {id : FunctionId} {c : Closure} : s.functions[id]? = some c → t.functions[id]? = some c
  classes {id : ClassId} {c : ClassObject} : s.classes[id]? = some c → t.classes[id]? = some c

theorem Grows.refl (s : Store) : s.Grows s := ⟨id, id⟩

theorem Grows.trans {s t u : Store} (h : s.Grows t) (h' : t.Grows u) : s.Grows u :=
  ⟨fun hf => h'.functions (h.functions hf), fun hc => h'.classes (h.classes hc)⟩

/-- A function or class that takes arguments goes on taking as many. -/
theorem Grows.arity {s t : Store} (h : s.Grows t) {c : Callable} (hc : c.arity s.objects ≠ 0) :
    c.arity t.objects = c.arity s.objects := by
  have hfunction {id : FunctionId} (hid : (s.objects.function id).arity ≠ 0) :
      (t.objects.function id).arity = (s.objects.function id).arity := by
    simp only [Function.arity, Store.function_objects, Store.function] at hid ⊢
    cases hs : s.functions[id]? with
    | none => simp [hs] at hid
    | some f => rw [h.functions hs]
  cases c with
  | native n => rfl
  | function id => exact hfunction hc
  | classObject id =>
    simp only [Callable.arity, Heap.classArity] at hc ⊢
    have hinit : t.objects.initializer? id = s.objects.initializer? id := by
      simp only [Heap.initializer?, Heap.classObject, Store.objects] at hc ⊢
      cases hs : s.classes[id]? with
      | none => simp [hs, Bindings.find?] at hc
      | some k => rw [h.classes hs]
    rw [hinit]
    cases hm : s.objects.initializer? id with
    | none => rfl
    | some method =>
      rw [hm] at hc
      exact hfunction hc

theorem decl_bindMethod (s : Store) (method : FunctionId) (receiver : InstanceId) :
    ((s.bindMethod method receiver).2.function (s.bindMethod method receiver).1).decl =
      (s.function method).decl := by
  simp only [bindMethod, function_addFunction]
  exact (congrArg Closure.decl (if_pos rfl)).trans rfl

theorem grows_addFunction (s : Store) (c : Closure) : s.Grows (s.addFunction c).2 where
  functions {id f} hf := by
    have hlt := (Array.getElem?_eq_some_iff.1 hf).1
    simp only [addFunction, Array.getElem?_push, if_neg (Nat.ne_of_lt hlt), hf]
  classes hc := hc

theorem grows_addCell (s : Store) (v : Value) : s.Grows (s.addCell v).2 := ⟨id, id⟩

theorem grows_bindMethod (s : Store) (method : FunctionId) (receiver : InstanceId) :
    s.Grows (s.bindMethod method receiver).2 :=
  (s.grows_addCell (.object receiver)).trans (grows_addFunction _ _)

theorem grows_addMethods (env : Env) (methods : List (FunDecl Stmt)) (s : Store)
    (table : Bindings FunctionId) : s.Grows (s.addMethods env methods table).2 := by
  induction methods generalizing s table with
  | nil => exact .refl s
  | cons d rest ih => exact (s.grows_addFunction ⟨d, env⟩).trans (ih _ _)

namespace Renamed

variable {s s' : Store}

theorem refl (s : Store) : s.Renamed x y s := .mk rfl fun _ => .refl _

theorem text_eq (h : s.Renamed x y s') (v : Value) : v.text s'.objects = v.text s.objects :=
  Related.text_eq (fun hc => hc.name_eq) h v

theorem arity_eq (h : s.Renamed x y s') (c : Callable) : c.arity s'.objects = c.arity s.objects :=
  Related.arity_eq (fun hc => hc.arity_eq) h c

theorem bindMethod (h : s.Renamed x y s') (hy : y ≠ "this") (method : FunctionId)
    (receiver : InstanceId) :
    (s'.bindMethod method receiver).1 = (s.bindMethod method receiver).1 ∧
      (s.bindMethod method receiver).2.Renamed x y (s'.bindMethod method receiver).2 := by
  obtain ⟨hcell, hadded⟩ := h.addCell (.object receiver)
  apply hadded.addFunction
  cases h.function method with
  | mk hd he =>
    rw [hcell]
    exact .mk hd (he.receiver hy _)

theorem addMethods (h : s.Renamed x y s') {methods methods' : List (FunDecl Stmt)}
    (hm : MethodsRenamed x y R methods methods') {env env' : Env} (he : env.Renamed x y R env')
    (table : Bindings FunctionId) :
    (s'.addMethods env' methods' table).1 = (s.addMethods env methods table).1 ∧
      (s.addMethods env methods table).2.Renamed x y (s'.addMethods env' methods' table).2 := by
  induction methods generalizing s s' methods' table with
  | nil =>
    cases hm
    exact ⟨rfl, h⟩
  | cons d rest ih =>
    cases hm with
    | @cons _ _ d' _ rest' hd hrest =>
      have hc : Closure.Renamed x y ⟨d, env⟩ ⟨d', env'⟩ := .mk hd he
      obtain ⟨hid, hadded⟩ := h.addFunction hc
      simp only [Store.addMethods, hid, hd.name_eq]
      exact ih hadded hrest _

end Renamed
end Store

/-! Actions that keep in step. -/

/-- How two runs that started on stores that are alike end: with results that are `good`, or with
the same failure. -/
inductive Answer.Renamed (x y : String) (good : α → α → Prop) (s : Store) :
    Answer Store α → Answer Store α → Prop
  | done {a a' : α} {t t' : Store} : good a a' → s.Grows t → t.Renamed x y t' →
    Renamed x y good s (.done a t) (.done a' t')
  | failed {d : Diagnostic} {t t' : Store} : t.Renamed x y t' →
    Renamed x y good s (.failed d t) (.failed d t')
  | outOfFuel : Renamed x y good s .outOfFuel .outOfFuel

theorem Answer.Renamed.after {good : α → α → Prop} {s t : Store} {r r' : Answer Store α}
    (h : Answer.Renamed x y good t r r') (hg : s.Grows t) : Answer.Renamed x y good s r r' := by
  cases h with
  | done ha hg' ht => exact .done ha (hg.trans hg') ht
  | failed ht => exact .failed ht
  | outOfFuel => exact .outOfFuel

/-- From stores with the property `pre` on, the two actions end alike. -/
def InStepFrom (x y : String) (pre : Store → Prop) (good : α → α → Prop) (u v : Action Store α) :
    Prop :=
  ∀ ⦃s s' : Store⦄, pre s → s.Renamed x y s' → Answer.Renamed x y good s (u s) (v s')

abbrev InStep (x y : String) (good : α → α → Prop) (u v : Action Store α) : Prop :=
  InStepFrom x y (fun _ => True) good u v

namespace InStepFrom

variable {pre : Store → Prop} {good : α → α → Prop} {good' : β → β → Prop}
variable {u v : Action Store α} {f g : α → Action Store β}

theorem fuelSpent : InStepFrom x y pre good fuelSpent fuelSpent := fun _ _ _ _ => .outOfFuel

theorem pure {a a' : α} (h : good a a') : InStepFrom x y pre good (Pure.pure a) (Pure.pure a') :=
  fun s _ _ hs => .done h (.refl s) hs

/-- What the first action achieves may be needed for the second. -/
theorem bindKeeping (hu : InStepFrom x y pre good u v) (post : α → Store → Prop)
    (hpost : ∀ ⦃s t a⦄, pre s → u s = .done a t → s.Grows t → post a t)
    (hf : ∀ a a', good a a' → InStepFrom x y (post a) good' (f a) (g a')) :
    InStepFrom x y pre good' (u >>= f) (v >>= g) := by
  intro s s' hp hs
  have hr := hu hp hs
  rw [bind_apply, bind_apply]
  generalize hus : u s = r, v s' = r' at hr
  cases hr with
  | @done a a' t t' ha hg ht =>
    exact (hf a a' ha (hpost hp hus hg) ht).after hg
  | failed ht => exact .failed ht
  | outOfFuel => exact .outOfFuel

theorem bind (hu : InStepFrom x y pre good u v)
    (hf : ∀ a a', good a a' → InStep x y good' (f a) (g a')) :
    InStepFrom x y pre good' (u >>= f) (v >>= g) :=
  hu.bindKeeping (fun _ _ => True) (fun _ _ _ _ _ _ => trivial) hf

theorem bindEq (hu : InStepFrom x y pre Eq u v) (hf : ∀ a, InStep x y good' (f a) (g a)) :
    InStepFrom x y pre good' (u >>= f) (v >>= g) := by
  apply hu.bind
  rintro a _ rfl
  exact hf a

theorem asCall {line : Nat} (hp : ∀ (s : Store) (w : World), pre s → pre { s with toWorld := w })
    (h : InStepFrom x y pre good u v) :
    InStepFrom x y pre good (asCall line u) (asCall line v) := by
  intro s s' hs h'
  have hl : s'.atLimit = s.atLimit := congrArg World.atLimit h'.toWorld_eq
  simp only [Lexical.asCall, hl]
  split
  · exact .failed h'
  · have hr := h (hp s s.enterCall hs) (h'.setWorld World.enterCall)
    generalize u { s with toWorld := s.enterCall } = r, v { s' with toWorld := s'.enterCall } = r'
      at hr
    cases hr with
    | done ha hg ht => exact .done ha ⟨hg.functions, hg.classes⟩ (ht.setWorld World.leaveCall)
    | failed ht => exact .failed (ht.setWorld World.leaveCall)
    | outOfFuel => exact .outOfFuel

theorem inspect {w : Store → α} (hw : ∀ ⦃s s' : Store⦄, s.Renamed x y s' → w s' = w s) :
    InStepFrom x y pre Eq (inspect w) (inspect w) :=
  fun s _ _ hs => .done (hw hs).symm (.refl s) hs

/-- A look at a function finds the same one with other names. -/
theorem function {id : FunctionId} :
    InStepFrom x y pre (Closure.Renamed x y) (Action.inspect (·.function id))
      (Action.inspect (·.function id)) :=
  fun s _ _ hs => .done (hs.function id) (.refl s) hs

theorem allocate {p q : Store → α × Store} (hg : ∀ s : Store, s.Grows (p s).2)
    (h : ∀ ⦃s s' : Store⦄, s.Renamed x y s' → (q s').1 = (p s).1 ∧ (p s).2.Renamed x y (q s').2) :
    InStepFrom x y pre Eq (allocate p) (allocate q) :=
  fun s _ _ hs => .done (h hs).1.symm (hg s) (h hs).2

end InStepFrom

/-! Actions that do not look at functions. -/

/-- The action takes no notice of functions and keeps classes. -/
structure Plain (u : Action Store α) : Prop where
  ignores : IgnoresFunctions u
  classes ⦃s t : Store⦄ ⦃a : α⦄ : u s = .done a t → ∀ {id : ClassId} {c : ClassObject},
    s.classes[id]? = some c → t.classes[id]? = some c

theorem Plain.inStep {u : Action Store α} (h : Plain u) (pre : Store → Prop) :
    InStepFrom x y pre Eq u u := by
  intro s s' _ hs
  have hr := h.ignores.related hs
  generalize hus : u s = r, u s' = r' at hr
  cases hr with
  | done hfunctions ht => exact .done rfl ⟨fun hc => hfunctions ▸ hc, h.classes hus⟩ ht
  | failed ht => exact .failed ht
  | outOfFuel => exact .outOfFuel

/-- For an action that does not touch classes. -/
theorem Plain.mk_of_eq {u : Action Store α} (h : IgnoresFunctions u)
    (hc : ∀ ⦃s t : Store⦄ ⦃a : α⦄, u s = .done a t → t.classes = s.classes) : Plain u :=
  ⟨h, fun _ _ _ hu _ _ hs => by rw [hc hu]; exact hs⟩

theorem plain_fail (line : Nat) (fault : Fault) : Plain (fail line fault : Action Store α) :=
  .mk_of_eq (ignoresFunctions_fail line fault) fun _ _ _ h => by cases h

theorem plain_lift (line : Nat) (r : Except RuntimeFault α) : Plain (lift line r) := by
  refine .mk_of_eq (ignoresFunctions_lift line r) fun s t a h => ?_
  cases r <;> cases h
  rfl

theorem plain_finish (op : BinaryOp) (v w : Value) (line : Nat) : Plain (op.finish v w line) := by
  cases op with
  | strict op => exact plain_lift line _
  | _ =>
    refine .mk_of_eq (ignoresFunctions_finish _ v w line) fun s t a h => ?_
    cases h
    rfl

theorem plain_read (env : Env) (name : String) (line : Nat) : Plain (read env name line) := by
  refine .mk_of_eq (ignoresFunctions_read env name line) fun s t a h => ?_
  unfold read at h
  split at h
  · cases h
    rfl
  · split at h <;> cases h
    rfl

theorem plain_write (env : Env) (name : String) (v : Value) (line : Nat) :
    Plain (write env name v line) := by
  refine .mk_of_eq (ignoresFunctions_write env name v line) fun s t a h => ?_
  unfold write at h
  split at h
  · cases h
    rfl
  · split at h <;> cases h
    rfl

theorem plain_assignHere (env : Env) (name : String) (v : Value) :
    Plain (assignHere env name v) := by
  refine .mk_of_eq (ignoresFunctions_assignHere env name v) fun s t a h => ?_
  unfold assignHere at h
  split at h
  · cases h
    rfl
  · split at h <;> cases h <;> rfl

theorem plain_setField (id : InstanceId) (name : String) (v : Value) : Plain (setField id name v) :=
  .mk_of_eq (ignoresFunctions_setField id name v) fun s t a h => by
    cases h
    rfl

theorem plain_print (text : String) : Plain (print text) := by
  refine .mk_of_eq (ignoresFunctions_print text) fun s t a h => ?_
  simp only [print] at h
  split at h <;> cases h
  rfl

theorem plain_tick : Plain tick :=
  .mk_of_eq ignoresFunctions_tick fun s t a h => by
    cases h
    rfl

theorem plain_addInstance (id : ClassId) : Plain (allocate (·.addInstance id)) :=
  .mk_of_eq (ignoresFunctions_addInstance id) fun s t a h => by
    cases h
    rfl

theorem plain_addClass (c : ClassObject) : Plain (allocate (·.addClass c)) := by
  refine ⟨ignoresFunctions_addClass c, fun s t a h id k hk => ?_⟩
  cases h
  have hlt := (Array.getElem?_eq_some_iff.1 hk).1
  simp only [Store.addClass, Array.getElem?_push, if_neg (Nat.ne_of_lt hlt), hk]

/-! The actions that look at names or functions. -/

section
variable {env env' : Env} {pre : Store → Prop}

theorem Env.Renamed.read_eq (h : env.Renamed x y R env') {n n' : String} (hn : R n n')
    (line : Nat) : read env' n' line = read env n line := by
  funext s
  simp only [read, h.found hn]
  cases hf : env.find? n with
  | some cell => rfl
  | none => rw [h.global hn hf]

/-- A declaration at top level that leaves all names as they are. -/
theorem Env.Renamed.name_of_top (h : env.Renamed x y R env') {a b : String}
    (htop : env = .top → R.declare a b = R) (ht : env = .top) : b = a := by
  have hab : R.declare a b a b := .inl ⟨rfl, rfl⟩
  rw [htop ht] at hab
  exact h.global hab (by rw [ht]; rfl)

theorem Env.Renamed.write_eq (h : env.Renamed x y R env') {n n' : String} (hn : R n n')
    (v : Value) (line : Nat) : write env' n' v line = write env n v line := by
  funext s
  simp only [write, h.found hn]
  cases hf : env.find? n with
  | some cell => rfl
  | none => rw [h.global hn hf]

theorem Env.Renamed.assignHere_eq (h : env.Renamed x y R env') {n n' : String} (hn : R n n')
    (v : Value) : assignHere env' n' v = assignHere env n v := by
  funext s
  simp only [assignHere, h.found hn]
  cases hf : env.find? n with
  | some cell => rfl
  | none => rw [h.global hn hf]

/-- The names behind a declaration: at top level there are none. -/
structure Env.Behind (x y : String) (env : Env) (R : Naming) (inner inner' : Env) : Prop where
  renamed : inner.Renamed x y R inner'
  top : inner = .top → env = .top

theorem inStep_declare (h : env.Renamed x y R env') {a b : String} (hab : Naming.Binds x y a b)
    (htop : env = .top → b = a) (v : Value) :
    InStepFrom x y pre (env.Behind x y (R.declare a b)) (declare env a v) (declare env' b v) := by
  intro s s' _ hs
  have hextend (c : Cell) := h.extend hab htop c
  cases hs with
  | mk hsize hf =>
    cases env with
    | top =>
      have hname := htop rfl
      subst hname
      rw [h.top_iff.2 rfl] at hextend ⊢
      exact .done ⟨hextend 0, id⟩ ⟨id, id⟩ (.mk hsize hf)
    | inside cells =>
      cases env' with
      | top => cases h.top_iff.1 rfl
      | inside cells' =>
        exact .done ⟨hextend s.cells.size, fun ht => by cases ht⟩ ⟨id, id⟩ (.mk hsize hf)

theorem inStep_declareFunction (h : env.Renamed x y R env') {d d' : FunDecl Stmt}
    (hd : FunctionRenamed x y (R.declare d.name d.name) d d') :
    InStepFrom x y pre (env.Behind x y (R.declare d.name d.name)) (declareFunction env d)
      (declareFunction env' d') := by
  intro s s' _ hs
  have hin := h.extend (.kept d.name) (fun _ => rfl) s.cells.size
  have hc : Closure.Renamed x y ⟨d, env.extend d.name s.cells.size⟩
      ⟨d', env'.extend d.name s'.cells.size⟩ := .mk hd (hs.cells_eq ▸ hin)
  obtain ⟨hid, hadded⟩ := hs.addFunction hc
  have hdeclare : InStep x y _ _ _ := inStep_declare h (.kept d.name) (fun _ => rfl)
    (.function (s.addFunction ⟨d, env.extend d.name s.cells.size⟩).1)
  have hgrows := s.grows_addFunction ⟨d, env.extend d.name s.cells.size⟩
  simp only [declareFunction, hd.name_eq, hid]
  exact (hdeclare trivial hadded).after hgrows

theorem inStep_property (hy : y ≠ "this") (id : InstanceId) (name : String) (line : Nat) :
    InStepFrom x y pre Eq (property id name line) (property id name line) := by
  refine .bindEq (.inspect fun _ _ hs => hs.property?_eq id name) fun p? => ?_
  cases p? with
  | none => exact (plain_fail line _).inStep _
  | some p =>
    cases p with
    | field v => exact .pure rfl
    | method m =>
      have hbind : InStep x y Eq _ _ := .allocate (fun s => s.grows_bindMethod m id)
        fun _ _ hs => hs.bindMethod hy m id
      exact hbind.bindEq fun bound => .pure rfl

/-- The arguments of a call that are as many as the parameters. -/
theorem inStep_declareAll {params params' : List String}
    (hp : ParamsRenamed x y R params params' R') (h : env.Renamed x y R env') (hne : env ≠ .top)
    (vs : List Value) (hn : params.length = vs.length) :
    InStep x y (fun inner inner' => inner.Renamed x y R' inner' ∧ inner ≠ .top)
      (declareAll env (params.zip vs)) (declareAll env' (params'.zip vs)) := by
  induction hp generalizing env env' vs with
  | nil => exact .pure ⟨h, hne⟩
  | cons hab _ ih =>
    cases vs with
    | nil => simp at hn
    | cons v vs =>
      refine .bind (inStep_declare h hab (fun ht => absurd ht hne) v) fun inner inner' hb => ?_
      exact ih hb.renamed (fun ht => hne (hb.top ht)) vs (by simpa using hn)

end
end Lox.Lexical
