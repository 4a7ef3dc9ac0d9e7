import Lox.Proofs.Lexical.Agreement
import Lox.Proofs.Operators

/-! The actions on a machine and their counterparts on a store: one lemma for each. -/
namespace Lox.Lexical

open Grammar (Context)

namespace Env

@[simp] theorem find?_enter (env : Env) (name : String) : env.enter.find? name = env.find? name := by
  cases env <;> rfl

theorem enter_ne_top (env : Env) : env.enter ≠ .top := by
  cases env <;> simp [enter]

theorem find?_extend_self {env : Env} (h : env ≠ .top) (name : String) (cell : Cell) :
    (env.extend name cell).find? name = some cell := by
  cases env with
  | top => exact absurd rfl h
  | inside => simp [extend, find?, Bindings.find?]

theorem find?_extend_ne (env : Env) {name other : String} (h : other ≠ name) (cell : Cell) :
    (env.extend name cell).find? other = env.find? other := by
  cases env with
  | top => rfl
  | inside =>
    have hne : (other == name) = false := by simpa using h
    simp [extend, find?, Bindings.find?, List.lookup_cons, hne]

theorem extend_ne_top {env : Env} (h : env ≠ .top) (name : String) (cell : Cell) :
    env.extend name cell ≠ .top := by
  cases env with
  | top => exact absurd rfl h
  | inside => simp [extend]

end Env

namespace Pair

variable {p p' : Pair} {changing : FrameId} {env : Env} {f : FrameId} {vis : Visible}

theorem Twin.find?_globals (h : p.Twin) (name : String) :
    p.frames.find? p.machine.globals name = p.store.globals.find? name := by
  simp [Frames.find?, h.globals]

theorem Twin.isSome_globals (h : p.Twin) (name : String) :
    (p.machine.heap.frames.find? p.machine.globals name).isSome = p.store.globals.has name :=
  congrArg Option.isSome (h.find?_globals name)

/-! Names. -/

/-- Where a visible name lies on the two sides. -/
theorem Sees.place (hs : p.Sees env f vis) (h : p.Twin) {o : Occurrence} (ho : o.Placed vis)
    {n : Nat} (hd : vis.distance? o.name = some n) :
    ∃ g c v, p.frames.target? f o.depth = some g ∧ env.find? o.name = some c ∧
      p.places[c]? = some (g, o.name) ∧ p.store.cells[c]? = some v ∧
        p.frames.find? g o.name = some v := by
  obtain ⟨g, c, ha, hc, hp⟩ := hs.found hd
  obtain ⟨-, v, hv, hf⟩ := h.cells hp
  refine ⟨g, c, v, ?_, hc, hp, hv, hf⟩
  rw [ho.1, Visible.depth_of_distance hd]
  exact ha

theorem Sees.global (hs : p.Sees env f vis) {o : Occurrence} (ho : o.Placed vis)
    (hd : vis.distance? o.name = none) :
    o.depth = .global ∧ p.frames.target? f o.depth = some p.machine.globals ∧
      env.find? o.name = none ∧ o.name ≠ "this" := by
  have hg : o.depth = .global := ho.1.trans (Visible.depth_of_none hd)
  refine ⟨hg, ?_, hs.absent hd, fun hthis => ?_⟩
  · rw [hg]
    exact congrArg some hs.root
  · have hvisible := ho.2 hthis
    rw [hd] at hvisible
    cases hvisible

theorem agrees_read (h : p.Twin) (hs : p.Sees env p.machine.current vis) {o : Occurrence}
    (ho : o.Placed vis) (line : Nat) :
    p.Agrees changing (Machine.read o line) (read env o.name line) Same := by
  unfold Agrees Machine.read read Frames.read
  cases hd : vis.distance? o.name with
  | some n =>
    obtain ⟨g, c, v, ht, hc, -, hv, hf⟩ := hs.place h ho hd
    simp only [ht, hc, hv, show p.machine.heap.frames.find? g o.name = some v from hf]
    exact .done h (.refl p) ⟨rfl, h.safeCells hv⟩
  | none =>
    obtain ⟨hg, ht, hn, hthis⟩ := hs.global ho hd
    simp only [ht, hn, h.find?_globals]
    cases hv : p.store.globals.find? o.name with
    | some v => exact .done h (.refl p) ⟨rfl, h.safeGlobals hv⟩
    | none =>
      simp only [hg]
      exact .failed h hthis

theorem agrees_write (h : p.Twin) (hs : p.Sees env p.machine.current vis) {o : Occurrence}
    (ho : o.Placed vis) {v : Value} (hv : p.Safe v) (line : Nat) :
    p.Agrees changing (Machine.write o v line) (write env o.name v line) fun _ _ _ => True := by
  unfold Agrees Machine.write write Frames.holder
  cases hd : vis.distance? o.name with
  | some n =>
    obtain ⟨g, c, w, ht, hc, hp, -, hf⟩ := hs.place h ho hd
    simp only [ht, hc, show p.machine.heap.frames.find? g o.name = some w from hf,
      Option.isSome_some, if_true]
    exact .done (h.bindCell hp hv) (later_bindCell h hp v) trivial
  | none =>
    obtain ⟨hg, ht, hn, hthis⟩ := hs.global ho hd
    simp only [ht, hn, h.isSome_globals]
    cases p.store.globals.has o.name with
    | true =>
      have hl : p.Later changing (p.bindGlobal o.name v) := later_bindGlobal p o.name v
      exact .done (h.bindGlobal o.name (hv.later hl)) hl trivial
    | false =>
      simp only [hg]
      exact .failed h hthis

/-! Declarations. -/

/-- A new name is found in the frame that got it, and the others where they were. -/
theorem Sees.declare (hs : p.Sees env f vis) (hl : p.Later changing p') {name : String} {c : Cell}
    (hv : vis ≠ []) (hp : p'.places[c]? = some (f, name)) :
    p'.Sees (env.extend name c) f (vis.declare name) where
  lt := (hs.later hl).lt
  root := (hs.later hl).root
  top hnil := by cases vis with
    | nil => exact absurd rfl hv
    | cons => cases hnil
  inner _ := by
    obtain ⟨hg, he⟩ := hs.inner hv
    exact ⟨hl.globals ▸ hg, Env.extend_ne_top he name c⟩
  found {other n} hd := by
    by_cases hn : other = name
    · subst hn
      rw [Visible.distance?_declare_self hv] at hd
      cases hd
      exact ⟨f, c, rfl, Env.find?_extend_self (hs.inner hv).2 _ _, hp⟩
    · rw [Visible.distance?_declare_ne vis hn] at hd
      rw [Env.find?_extend_ne env hn]
      exact (hs.later hl).found hd
  absent {other} hd := by
    by_cases hn : other = name
    · subst hn
      rw [Visible.distance?_declare_self hv] at hd
      cases hd
    · rw [Visible.distance?_declare_ne vis hn] at hd
      rw [Env.find?_extend_ne env hn]
      exact hs.absent hd

theorem Inside.addCell (hi : p.Inside env f vis) (h : p.Twin) (hv : vis ≠ []) (name : String)
    (v : Value) :
    (p.addCell f name v).Inside (env.extend name p.store.cells.size) f (vis.declare name) where
  sees := by
    refine hi.sees.declare (p.later_addCell f name v) hv ?_
    rw [← h.size]
    exact Array.getElem?_push_size
  lacks {names outer other} he hn := by
    cases vis with
    | nil => exact absurd rfl hv
    | cons names' outer' =>
      cases he
      obtain ⟨hne, hn⟩ := not_or.1 fun hm => hn (List.mem_cons.2 hm)
      exact (Frames.find?_bind_ne (.inr hne)).trans (hi.lacks rfl hn)

/-- A frame takes a name that is not among its own, and the value is one that may be used once the
name is there. -/
theorem addCell_alike (h : p.Twin) (hi : p.Inside env f vis) (hv : vis ≠ []) {name : String}
    (ht : vis.Takes name) {v : Value}
    (hsafe : ∀ p', p.Later f p' →
      p'.Inside (env.extend name p.store.cells.size) f (vis.declare name) → p'.Safe v) :
    p.frames.find? f name = none ∧ (p.addCell f name v).Twin ∧
      (p.addCell f name v).Inside (env.extend name p.store.cells.size) f (vis.declare name) := by
  have hnone : p.frames.find? f name = none := by
    cases vis with
    | nil => exact absurd rfl hv
    | cons names outer => exact hi.lacks rfl (ht names rfl)
  have hin := hi.addCell h hv name v
  exact ⟨hnone, h.addCell (hi.sees.inner hv).1 hi.sees.lt hnone
    (hsafe _ (p.later_addCell f name v) hin), hin⟩

theorem agrees_define_of_safe (h : p.Twin) (hi : p.Inside env p.machine.current vis)
    {name : String} (ht : vis.Takes name) {v : Value} (line : Nat)
    (hsafe : ∀ p', p.Later p.machine.current p' →
      p'.Inside (env.extend name p.store.cells.size) p.machine.current (vis.declare name) →
        p'.Safe v) :
    p.Agrees p.machine.current (Machine.define name v line) (declare env name v)
      fun _ env' p' => p'.Inside env' p.machine.current (vis.declare name) := by
  unfold Agrees Machine.define Lexical.declare Frames.accepts
  cases vis with
  | nil =>
    obtain ⟨hg, rfl⟩ := hi.sees.top rfl
    have hroot : p.machine.heap.frames.isRoot p.machine.globals = true := by
      simp only [Frames.isRoot, show p.machine.heap.frames.get? _ = _ from h.globals]
    rw [hg] at hi hsafe ⊢
    simp only [hroot, Bool.true_or, if_true]
    have hl : p.Later p.machine.globals (p.bindGlobal name v) := later_bindGlobal p name v
    have hin : (p.bindGlobal name v).Inside .top p.machine.globals [] :=
      ⟨hi.sees.later hl, fun hv => by cases hv⟩
    exact .done (h.bindGlobal name (hsafe _ hl hin)) hl hin
  | cons names outer =>
    obtain ⟨hnone, htwin, hin⟩ := addCell_alike h hi (by simp) ht hsafe
    obtain ⟨cells, rfl⟩ : ∃ cells, env = .inside cells := by
      cases env with
      | top => exact absurd rfl (hi.sees.inner (by simp)).2
      | inside cells => exact ⟨cells, rfl⟩
    simp only [show p.machine.heap.frames.find? _ name = none from hnone, Option.isNone_none,
      Bool.or_true, if_true]
    exact .done htwin (p.later_addCell _ name v) hin

theorem agrees_define (h : p.Twin) (hi : p.Inside env p.machine.current vis) {name : String}
    (ht : vis.Takes name) {v : Value} (hv : p.Safe v) (line : Nat) :
    p.Agrees p.machine.current (Machine.define name v line) (declare env name v)
      fun _ env' p' => p'.Inside env' p.machine.current (vis.declare name) :=
  agrees_define_of_safe h hi ht line fun _ hl _ => hv.later hl

/-- A function is declared behind its making, so that it sees its own name. -/
theorem agrees_declareFunction (h : p.Twin) (hi : p.Inside env p.machine.current vis)
    {decl : FunDecl Stmt} (ht : vis.Takes decl.name) {ctx : Context}
    (hp : functionPlaced ctx (vis.declare decl.name) decl) :
    p.Agrees p.machine.current (do
      let frame ← Action.inspect (·.current)
      let id ← Machine.allocate (·.addFunction ⟨decl, frame⟩)
      Machine.define decl.name (.function id) decl.line) (declareFunction env decl)
      fun _ env' p' => p'.Inside env' p.machine.current (vis.declare decl.name) := by
  let added := p.addFunction ⟨decl, p.machine.current⟩ (env.extend decl.name p.store.cells.size)
  have hl : p.Later p.machine.globals added := p.later_addFunction _ _
  have hdefine := agrees_define_of_safe (h.addFunction _ _ : added.Twin) (hi.later hl) ht
    (v := .function p.machine.heap.functions.size) decl.line fun p' hl' hin =>
      h.closes_added hl' hin.sees hp
  refine hdefine.after rfl ?_ fun q hq => hl.weaken.trans hq
  unfold declareFunction
  simp only [Store.addFunction, h.functions_size]
  rfl

theorem agrees_assignHere (h : p.Twin) {name : String}
    (hs : p.Sees env p.machine.current (vis.declare name)) {v : Value} (hv : p.Safe v) :
    p.Agrees changing (Machine.assignHere name v) (assignHere env name v) fun _ _ _ => True := by
  unfold Agrees Machine.assignHere assignHere
  cases vis with
  | nil =>
    obtain ⟨hg, rfl⟩ := hs.top rfl
    simp only [hg, h.isSome_globals, Env.find?]
    cases p.store.globals.has name with
    | true =>
      have hl : p.Later changing (p.bindGlobal name v) := later_bindGlobal p name v
      exact .done (h.bindGlobal name (hv.later hl)) hl trivial
    | false => exact .done h (.refl p) trivial
  | cons names outer =>
    obtain ⟨g, c, ha, hc, hp⟩ := hs.found (Visible.distance?_declare_self (by simp) name)
    cases ha
    obtain ⟨-, w, -, hf⟩ := h.cells hp
    simp only [hc, show p.machine.heap.frames.find? _ name = some w from hf, Option.isSome_some,
      if_true]
    exact .done (h.bindCell hp hv) (later_bindCell h hp v) trivial

/-! Methods and classes. -/

/-- A table whose functions are methods. -/
def AreMethods (p : Pair) (methods : Bindings FunctionId) : Prop :=
  ∀ name method, methods.find? name = some method → p.Closes [["this"]] method

theorem areMethods_nil : p.AreMethods [] := fun _ _ h => by cases h

theorem AreMethods.later {methods : Bindings FunctionId} (hm : p.AreMethods methods)
    (hl : p.Later changing p') : p'.AreMethods methods :=
  fun name method h => (hm name method h).later hl

theorem agrees_addMethods (h : p.Twin) (hs : p.Sees env f vis) {ctx : Context}
    {decls : List (FunDecl Stmt)} (hp : methodsPlaced ctx (["this"] :: vis) decls)
    {methods : Bindings FunctionId} (hm : p.AreMethods methods) :
    p.Agrees changing (Machine.allocate (·.addMethods f decls methods))
      (allocate (·.addMethods env decls methods)) fun t t' p' => t' = t ∧ p'.AreMethods t := by
  induction decls generalizing p methods with
  | nil => exact .done h (.refl p) ⟨rfl, hm⟩
  | cons decl rest ih =>
    let added := p.addFunction ⟨decl, f⟩ env
    have hl : p.Later changing added := p.later_addFunction _ _
    have hadded : added.AreMethods (methods.insert decl.name p.machine.heap.functions.size) := by
      intro name method hfind
      rw [Bindings.find?_insert] at hfind
      split at hfind
      next =>
        cases hfind
        have hsame : added.Later changing added := .refl added
        exact h.closes_added hsame (hs.later hl) hp.1
      next => exact (hm name method hfind).later hl
    refine (ih (h.addFunction ⟨decl, f⟩ env) (hs.later hl) hp.2 hadded).after rfl ?_
      fun q hq => hl.trans hq
    simp only [Pair.addFunction, allocate, Store.addMethods, Store.addFunction,
      h.functions_size]

theorem agrees_addClass (h : p.Twin) {c : ClassObject} (hm : p.AreMethods c.methods) :
    p.Agrees changing (Machine.allocate (·.addClass c)) (allocate (·.addClass c)) fun id id' p' =>
      id' = id ∧ p'.Safe (.classObject id) := by
  have hlast : (p.addClass c).store.classes[p.store.classes.size]? = some c :=
    Array.getElem?_push_size
  rw [h.classes] at hlast
  exact .done (h.addClass hm) (p.later_addClass c) ⟨congrArg Array.size h.classes, c, hlast⟩

theorem agrees_addInstance (h : p.Twin) (id : ClassId) :
    p.Agrees changing (Machine.allocate (·.addInstance id)) (allocate (·.addInstance id))
      fun i i' _ => i' = i :=
  .done (h.addInstance id) (p.later_addInstance id) (congrArg Array.size h.instances)

theorem agrees_setField (h : p.Twin) (id : InstanceId) (name : String) {v : Value}
    (hv : p.Safe v) :
    p.Agrees changing (Machine.setField id name v) (Lexical.setField id name v)
      fun _ _ _ => True :=
  .done (h.setField id name hv) (p.later_setField id name v) trivial

/-! Frames. -/

theorem Sees.addFrame (hs : p.Sees env f vis) (h : p.Twin) :
    (p.addFrame f).Inside env.enter p.frames.size ([] :: vis) := by
  have hl : p.Later 0 (p.addFrame f) := p.later_addFrame f
  have hnew : (p.addFrame f).frames.get? p.frames.size =
      some ⟨[], some f, some (p.frames.rootOf f)⟩ :=
    (Frames.get?_addChild _ _ _).trans (if_pos rfl)
  refine ⟨⟨?_, ?_, by simp, fun _ => ⟨?_, env.enter_ne_top⟩, fun {name n} hd => ?_,
    fun {name} hd => ?_⟩, fun _ _ => ?_⟩
  · exact Frames.get?_eq_some_lt hnew
  · unfold Frames.rootOf
    rw [hnew]
    exact hs.root
  · exact fun he => Nat.lt_irrefl _ (he ▸ Frames.get?_eq_some_lt h.globals)
  · rw [Visible.distance?_cons, if_neg (by simp)] at hd
    obtain ⟨n, hn, rfl⟩ := Option.map_eq_some_iff.1 hd
    obtain ⟨g, c, ha, hc, hp⟩ := (hs.later hl).found hn
    refine ⟨g, c, ?_, by rw [Env.find?_enter, hc], hp⟩
    rw [Frames.ancestor?, hnew]
    exact ha
  · rw [Visible.distance?_cons, if_neg (by simp)] at hd
    rw [Env.find?_enter]
    exact hs.absent (Option.map_eq_none_iff.1 hd)
  · simp [Frames.find?, hnew]

/-- What an action does is the same whichever frame was current before. -/
theorem Agrees.inFrame {α β : Type} {x : Action Machine α} {y : Action Store β}
    {post : α → β → Pair → Prop} (h : (p.atFrame f).Agrees f x y post)
    (hpost : ∀ a b q g, post a b q → post a b (q.atFrame g)) :
    p.Agrees f (Machine.inFrame f x) y post := by
  unfold Agrees Machine.inFrame at *
  simp only [Pair.atFrame] at h
  generalize hx : x { p.machine with current := f } = r at h ⊢
  generalize y p.store = r' at h ⊢
  cases h with
  | @done q a b ht hl hq =>
    have hl' : p.Later f (q.atFrame p.machine.current) :=
      ⟨hl.globals, rfl, hl.places, hl.functions, hl.closures, hl.classes, hl.frames, hl.names⟩
    exact .done (Twin.atFrame ht) hl' (hpost a b q _ hq)
  | @failed q d ht hd =>
    have ht' : (q.atFrame p.machine.current).Twin := ht.atFrame
    exact .failed ht' hd
  | outOfFuel => exact .outOfFuel

theorem Inside.atFrame {g : FrameId} (hi : p.Inside env f vis) : (p.atFrame g).Inside env f vis :=
  ⟨hi.sees.atFrame, hi.lacks⟩

/-- What is done behind the making of a frame may change that frame as it likes. -/
theorem agrees_addFrame {α β : Type} (outer : FrameId) {x : FrameId → Action Machine α}
    {y : Action Store β} {post : α → β → Pair → Prop}
    (h : (p.addFrame outer).Agrees p.frames.size (x p.frames.size) y post) :
    p.Agrees changing (Machine.allocate (·.addFrame outer) >>= x) y post :=
  h.after rfl rfl fun _ hq => (p.later_addFrame _).through (Nat.le_refl _) hq

/-- A scope of its own around what is done: no name of it is left behind. -/
theorem agrees_inNewFrame {α β : Type} {x : Action Machine α} {y : Action Store β}
    {post : α → β → Pair → Prop} (h : p.Twin) (hi : p.Sees env p.machine.current vis)
    (hx : ∀ q : Pair, q.Twin → q.Inside env.enter q.machine.current ([] :: vis) →
      q.Agrees q.machine.current x y post)
    (hpost : ∀ a b q g, post a b q → post a b (q.atFrame g)) :
    p.Agrees changing (Machine.inNewFrame x) y post := by
  let added := p.addFrame p.machine.current
  have hin : added.Inside env.enter p.frames.size ([] :: vis) := hi.addFrame h
  have hbody := hx (added.atFrame p.frames.size) (h.addFrame _).atFrame hin.atFrame
  exact .inspect_left (agrees_addFrame _ (hbody.inFrame hpost))

/-- The order of the names in a scope does not matter. -/
theorem Inside.congr {names names' : List String} {outer : Visible}
    (hi : p.Inside env f (names :: outer)) (hn : ∀ name, name ∈ names ↔ name ∈ names') :
    p.Inside env f (names' :: outer) := by
  have hd (name : String) : Visible.distance? (names' :: outer) name =
      Visible.distance? (names :: outer) name := by
    simp only [Visible.distance?_cons, hn]
  refine ⟨⟨hi.sees.lt, hi.sees.root, by simp, fun _ => hi.sees.inner (by simp), fun h => ?_,
    fun h => ?_⟩, fun he hmem => ?_⟩
  · exact hi.sees.found (hd _ ▸ h)
  · exact hi.sees.absent (hd _ ▸ h)
  · cases he
    exact hi.lacks rfl fun h => hmem ((hn _).1 h)

/-- The parameters of a call get their arguments in a frame made for them. -/
theorem agrees_defineAll (h : p.Twin) {names : List String} {outer : Visible}
    (hi : p.Inside env f (names :: outer)) {params : List String} {vs : List Value}
    (hlen : params.length = vs.length) (hnodup : params.Nodup)
    (hfresh : ∀ name ∈ params, name ∉ names) (hvs : ∀ v ∈ vs, p.Safe v) :
    p.Agrees f (Machine.defineAll f (params.zip vs)) (declareAll env (params.zip vs))
      fun _ env' p' => p'.Inside env' f ((params ++ names) :: outer) := by
  induction params generalizing p env names vs with
  | nil => exact .done h (.refl p) hi
  | cons name params ih =>
    cases vs with
    | nil => cases hlen
    | cons v vs =>
      obtain ⟨hname, hnodup⟩ := List.nodup_cons.1 hnodup
      obtain ⟨hv, hvs⟩ := List.forall_mem_cons.1 hvs
      have hl : p.Later f (p.addCell f name v) := p.later_addCell f name v
      have htakes : Visible.Takes (names :: outer) name := fun _ he => by
        cases he
        exact hfresh name List.mem_cons_self
      obtain ⟨hnone, ht, hin⟩ := addCell_alike h hi (by simp) htakes fun _ hl _ => hv.later hl
      have hrest := ih ht hin (by simpa using hlen) hnodup
        (fun other hm hor => by
          rcases List.mem_cons.1 hor with rfl | hmem
          · exact hname hm
          · exact hfresh other (List.mem_cons_of_mem _ hm) hmem)
        fun w hw => (hvs w hw).later hl
      have hmem (other : String) : other ∈ params ++ name :: names ↔
          other ∈ name :: params ++ names := by simp [or_left_comm]
      refine (hrest.imp fun _ _ q _ hq => hq.congr hmem).after ?_ ?_ fun q hq => hl.trans hq
      · have haccepts : p.machine.heap.frames.accepts f name = true := by
          simp [Frames.accepts, show p.machine.heap.frames.find? f name = none from hnone]
        simp only [List.zip_cons_cons, Machine.defineAll, haccepts, if_true]
        rfl
      · cases env with
        | top => exact absurd rfl (hi.sees.inner (by simp)).2
        | inside cells => rfl

/-- A function that takes so many arguments. -/
def Takes (p : Pair) (id : FunctionId) (n : Nat) : Prop :=
  ∃ f, p.machine.heap.functions[id]? = some f ∧ f.arity = n

theorem Takes.later {id : FunctionId} {n : Nat} (h : p.Takes id n) (hl : p.Later changing p') :
    p'.Takes id n := by
  rcases h with ⟨f, hf, hn⟩
  exact ⟨f, hl.functions hf, hn⟩

/-- A method is bound in a frame of its own, where the receiver is `this`. -/
theorem agrees_bindMethod (h : p.Twin) {method : FunctionId} (hm : p.Closes [["this"]] method)
    (receiver : InstanceId) :
    p.Agrees changing (Machine.allocate (·.bindMethod method receiver))
      (allocate (·.bindMethod method receiver)) fun id id' p' =>
        id' = id ∧ p'.Closes [] id ∧ ∀ n, p.Takes method n → p'.Takes id n := by
  rcases hm with ⟨f, c, hf, hc, hd, ctx, vis, hs, hp⟩
  let framed := p.addFrame f.closure
  have hframed : framed.Twin := h.addFrame f.closure
  have hlf : p.Later changing framed := p.later_addFrame f.closure
  have hnothing : Visible.Takes ([] :: vis) "this" := fun _ he => by
    cases he
    simp
  obtain ⟨-, hbound, hin⟩ := addCell_alike hframed (hs.addFrame h) (by simp) hnothing
    (v := .object receiver) fun _ _ _ => trivial
  have hlb := framed.later_addCell p.frames.size "this" (.object receiver)
  let bound := framed.addCell p.frames.size "this" (.object receiver)
  let last := bound.addFunction ⟨f.decl, p.frames.size⟩
    (c.env.enter.extend "this" framed.store.cells.size)
  have hll : bound.Later changing last := bound.later_addFunction _ _
  have hl : p.Later changing last := (hlf.through (Nat.le_refl _) hlb).trans hll
  have hcloses : last.Closes [] p.machine.heap.functions.size :=
    hbound.closes_added (.refl last : last.Later changing last) (hin.sees.later hll) hp
  have hlast : last.machine.heap.functions[p.machine.heap.functions.size]? =
      some ⟨f.decl, p.frames.size⟩ := Array.getElem?_push_size
  have hfun : p.machine.heap.function method = f := by simp [Heap.function, hf]
  have hclos : p.store.function method = c := by simp [Store.function, hc]
  unfold Agrees Machine.allocate allocate Heap.bindMethod Store.bindMethod
  simp only [hfun, hclos, hd]
  refine .done (hbound.addFunction _ _) hl ⟨h.functions_size, hcloses, fun n hn => ?_⟩
  rcases hn with ⟨f', hf', hn⟩
  cases hf.symm.trans hf'
  exact ⟨_, hlast, hn⟩

/-! Properties. -/

theorem Twin.closes_method (h : p.Twin) {id : ClassId} {name : String} {method : FunctionId}
    (hm : (p.machine.heap.classObject id).methods.find? name = some method) :
    p.Closes [["this"]] method := by
  unfold Heap.classObject at hm
  rw [← h.classes] at hm
  cases hc : p.store.classes[id]? with
  | none =>
    rw [hc] at hm
    cases hm
  | some c =>
    rw [hc] at hm
    exact h.methods hc hm

theorem Twin.safe_field (h : p.Twin) {id : InstanceId} {name : String} {v : Value}
    (hv : (p.machine.heap.object id).fields.find? name = some v) : p.Safe v := by
  unfold Heap.object at hv
  rw [← h.instances] at hv
  cases hi : p.store.instances[id]? with
  | none =>
    rw [hi] at hv
    cases hv
  | some i =>
    rw [hi] at hv
    exact h.safeFields hi hv

theorem agrees_property (h : p.Twin) (id : InstanceId) (name : String) (line : Nat) :
    p.Agrees changing (Machine.property id name line) (property id name line) Same := by
  refine .inspect ?_
  have hsame : p.store.objects.property? id name = p.machine.heap.property? id name := by
    rw [h.objects]
    rfl
  rw [hsame]
  cases hp : p.machine.heap.property? id name with
  | none => exact .failRuntime h trivial
  | some found =>
    unfold Heap.property? at hp
    split at hp
    next v hv =>
      cases hp
      exact .pure h ⟨rfl, h.safe_field hv⟩
    next =>
      obtain ⟨method, hm, rfl⟩ := Option.map_eq_some_iff.1 hp
      apply (agrees_bindMethod h (h.closes_method hm) id).bind
      intro bound bound' q hq _ hb
      exact .pure hq ⟨congrArg Value.function hb.1, hb.2.1⟩

/-! Operators. -/

theorem Safe.of_plain {v : Value} (h : v.IsPlain) : p.Safe v := by
  cases v <;> trivial

theorem agrees_lift (h : p.Twin) {r : Except RuntimeFault Value} (hr : IsOperation r)
    (line : Nat) : p.Agrees changing (Action.lift line r) (Action.lift line r) Same := by
  cases r with
  | ok v => exact .pure h ⟨rfl, .of_plain hr⟩
  | error f =>
    refine .failRuntime h ?_
    cases f <;> trivial

theorem agrees_finish (h : p.Twin) (op : BinaryOp) (v : Value) {w : Value} (hw : p.Safe w)
    (line : Nat) : p.Agrees changing (op.finish v w line) (op.finish v w line) Same := by
  cases op with
  | or | and => exact .pure h ⟨rfl, hw⟩
  | strict op => exact agrees_lift h (op.apply_isOperation v w) line

/-! The world around. -/

theorem agrees_print (h : p.Twin) (text : String) :
    p.Agrees changing (Machine.print text) (print text) fun _ _ _ => True := by
  unfold Agrees Machine.print print
  rw [h.world]
  simp only
  split
  · exact .done (h.setWorld _) (p.later_setWorld _) trivial
  · exact .failed (h.setWorld _) trivial

theorem agrees_tick (h : p.Twin) : p.Agrees changing Machine.tick tick Same := by
  unfold Agrees Machine.tick tick
  rw [h.world]
  exact .done (h.setWorld _) (p.later_setWorld _) ⟨rfl, trivial⟩

theorem Agrees.asCall {α β : Type} {x : Action Machine α} {y : Action Store β}
    {post : α → β → Pair → Prop} (h : p.Twin) (line : Nat)
    (hx : ∀ q : Pair, q.Twin → p.Later changing q → q.Agrees changing x y post)
    (hpost : ∀ a b q w, post a b q → post a b (q.setWorld w)) :
    p.Agrees changing (Machine.asCall line x) (Lexical.asCall line y) post := by
  unfold Agrees Machine.asCall Lexical.asCall
  rw [h.world]
  split
  · exact .failed h trivial
  have hl : p.Later changing (p.setWorld p.machine.enterCall) := p.later_setWorld _
  have hbody := hx _ (h.setWorld _) hl
  unfold Agrees at hbody
  simp only [Pair.setWorld] at hbody
  generalize x _ = r at hbody ⊢
  generalize y _ = r' at hbody ⊢
  cases hbody with
  | @done q a b ht hl' hq =>
    simp only [ht.world]
    exact .done (ht.setWorld _) ((hl.trans hl').trans (q.later_setWorld _)) (hpost a b q _ hq)
  | failed ht hd =>
    simp only [ht.world]
    exact .failed (ht.setWorld _) hd
  | outOfFuel => exact .outOfFuel

end Pair
end Lox.Lexical
