import Lox.Proofs.Lexical.Twin

/-! The single changes of a machine and of its twin: each keeps the two sides in the same state, and
what was known about names and functions stays true. -/
namespace Lox.Lexical.Pair

open Grammar (Context)

variable {p p' : Pair} {changing : FrameId} {env : Env} {vis : Visible}

/-- A change that concerns neither frames nor cells. -/
theorem Twin.of_objects (h : p.Twin) (hl : p.Later changing p') (hf : p'.frames = p.frames)
    (hp : p'.places = p.places) (hc : p'.store.cells = p.store.cells)
    (hg : p'.store.globals = p.store.globals) (hw : p'.store.toWorld = p'.machine.toWorld)
    (ho : p'.store.objects = p'.machine.heap.withoutFrames)
    (hfields : ∀ (id : InstanceId) (i : Instance) name v, p'.store.instances[id]? = some i →
      i.fields.find? name = some v → p'.Safe v)
    (hmethods : ∀ (id : ClassId) (c : ClassObject) name method, p'.store.classes[id]? = some c →
      c.methods.find? name = some method → p'.Closes [["this"]] method) : p'.Twin where
  world := hw
  objects := ho
  globals := by rw [hf, hl.globals, hg, h.globals]
  size := by rw [hp, hc, h.size]
  cells hplace := by
    rw [hf, hl.globals, hc]
    exact h.cells (hp ▸ hplace)
  apart h₁ h₂ := h.apart (hp ▸ h₁) (hp ▸ h₂)
  safeCells hv := (h.safeCells (hc ▸ hv)).later hl
  safeGlobals hv := (h.safeGlobals (hg ▸ hv)).later hl
  safeFields := hfields _ _ _ _
  methods := hmethods _ _ _ _

/-- A change that concerns frames and cells alone. -/
theorem Twin.of_cells (h : p.Twin) (hl : p.Later changing p')
    (hw : p'.store.toWorld = p.store.toWorld) (hw' : p'.machine.toWorld = p.machine.toWorld)
    (ho : p'.store.objects = p.store.objects)
    (ho' : p'.machine.heap.withoutFrames = p.machine.heap.withoutFrames)
    (hg : p'.frames.get? p'.machine.globals = some ⟨p'.store.globals, none, none⟩)
    (hsize : p'.places.size = p'.store.cells.size)
    (hcells : ∀ (c : Cell) g name, p'.places[c]? = some (g, name) →
      g ≠ p'.machine.globals ∧ ∃ v, p'.store.cells[c]? = some v ∧ p'.frames.find? g name = some v)
    (hapart : ∀ (c c' : Cell) place, p'.places[c]? = some place → p'.places[c']? = some place →
      c = c')
    (hsafe : ∀ (c : Cell) v, p'.store.cells[c]? = some v → p'.Safe v)
    (hsafe' : ∀ name v, p'.store.globals.find? name = some v → p'.Safe v) : p'.Twin where
  world := by rw [hw, hw', h.world]
  objects := by rw [ho, ho', h.objects]
  globals := hg
  size := hsize
  cells := hcells _ _ _
  apart := hapart _ _ _
  safeCells := hsafe _ _
  safeGlobals := hsafe' _ _
  safeFields hi hv := by
    have hsame : p'.store.instances = p.store.instances := congrArg Heap.instances ho
    exact (h.safeFields (hsame ▸ hi) hv).later hl
  methods hc hm := by
    have hsame : p'.store.classes = p.store.classes := congrArg Heap.classes ho
    exact (h.methods (hsame ▸ hc) hm).later hl

/-! Another current frame. -/

def atFrame (p : Pair) (f : FrameId) : Pair :=
  { p with machine := { p.machine with current := f } }

theorem Sees.atFrame {f g : FrameId} (h : p.Sees env f vis) : (p.atFrame g).Sees env f vis :=
  ⟨h.lt, h.root, h.top, h.inner, h.found, h.absent⟩

theorem Closes.atFrame {g : FrameId} {extra : Visible} {id : FunctionId} (h : p.Closes extra id) :
    (p.atFrame g).Closes extra id := by
  rcases h with ⟨f, c, hf, hc, hd, ctx, vis, hs, hp⟩
  exact ⟨f, c, hf, hc, hd, ctx, vis, hs.atFrame, hp⟩

theorem Safe.atFrame {g : FrameId} {v : Value} (h : p.Safe v) : (p.atFrame g).Safe v := by
  cases v with
  | function id => exact Closes.atFrame h
  | classObject id => exact h
  | _ => trivial

theorem Twin.atFrame {g : FrameId} (h : p.Twin) : (p.atFrame g).Twin where
  world := h.world
  objects := h.objects
  globals := h.globals
  size := h.size
  cells := h.cells
  apart := h.apart
  safeCells hv := (h.safeCells hv).atFrame
  safeGlobals hv := (h.safeGlobals hv).atFrame
  safeFields hi hv := (h.safeFields hi hv).atFrame
  methods hc hm := (h.methods hc hm).atFrame

/-! The world around. -/

def setWorld (p : Pair) (w : World) : Pair :=
  { p with machine := { p.machine with toWorld := w }, store := { p.store with toWorld := w } }

theorem later_setWorld (p : Pair) (w : World) : p.Later changing (p.setWorld w) :=
  ⟨rfl, rfl, id, id, id, id, .refl _, fun _ _ _ => id⟩

theorem Twin.setWorld (h : p.Twin) (w : World) : (p.setWorld w).Twin :=
  have hl : p.Later 0 (p.setWorld w) := p.later_setWorld w
  h.of_objects hl rfl rfl rfl rfl rfl h.objects
    (fun _ _ _ _ hi hv => (h.safeFields hi hv).later hl)
    fun _ _ _ _ hc hm => (h.methods hc hm).later hl

/-! Functions, classes and instances. -/

def addFunction (p : Pair) (f : Function) (env : Env) : Pair :=
  { p with
    machine := { p.machine with heap := (p.machine.heap.addFunction f).2 }
    store := (p.store.addFunction ⟨f.decl, env⟩).2 }

theorem getElem?_push_of_some {α : Type} {a b : α} {as : Array α} {n : Nat} (h : as[n]? = some a) :
    (as.push b)[n]? = some a := by
  rw [Array.getElem?_push_lt (Array.getElem?_eq_some_iff.1 h).1]
  exact congrArg some (Array.getElem?_eq_some_iff.1 h).2

theorem later_addFunction (p : Pair) (f : Function) (env : Env) :
    p.Later changing (p.addFunction f env) :=
  ⟨rfl, rfl, id, getElem?_push_of_some, getElem?_push_of_some, id, .refl _, fun _ _ _ => id⟩

theorem Twin.functions_map (h : p.Twin) :
    p.store.functions.map (fun c => (⟨c.decl, 0⟩ : Function)) =
      p.machine.heap.functions.map fun f => ⟨f.decl, 0⟩ :=
  congrArg Heap.functions h.objects

theorem Twin.functions_size (h : p.Twin) :
    p.store.functions.size = p.machine.heap.functions.size := by
  simpa using congrArg Array.size h.functions_map

theorem Twin.classes (h : p.Twin) : p.store.classes = p.machine.heap.classes :=
  congrArg Heap.classes h.objects

theorem Twin.instances (h : p.Twin) : p.store.instances = p.machine.heap.instances :=
  congrArg Heap.instances h.objects

theorem Twin.addFunction (h : p.Twin) (f : Function) (env : Env) : (p.addFunction f env).Twin := by
  have hl : p.Later 0 (p.addFunction f env) := p.later_addFunction f env
  refine h.of_objects hl rfl rfl rfl rfl h.world ?_
    (fun _ _ _ _ hi hv => (h.safeFields hi hv).later hl)
    fun _ _ _ _ hc hm => (h.methods hc hm).later hl
  simp only [Store.objects, Heap.withoutFrames, Pair.addFunction, Store.addFunction,
    Heap.addFunction, Array.map_push, h.functions_map, h.classes, h.instances]

/-- A new function closes over what it saw where it was made. -/
theorem Twin.closes_added (h : p.Twin) {f : Function}
    (hl : (p.addFunction f env).Later changing p') {extra : Visible} {ctx : Context}
    (hs : p'.Sees env f.closure vis) (hp : functionPlaced ctx (extra ++ vis) f.decl) :
    p'.Closes extra p.machine.heap.functions.size := by
  refine ⟨f, ⟨f.decl, env⟩, hl.functions ?_, hl.closures ?_, rfl, ctx, vis, hs, hp⟩
  · exact Array.getElem?_push_size
  · rw [← h.functions_size]
    exact Array.getElem?_push_size

def addClass (p : Pair) (c : ClassObject) : Pair :=
  { p with
    machine := { p.machine with heap := (p.machine.heap.addClass c).2 }
    store := (p.store.addClass c).2 }

theorem later_addClass (p : Pair) (c : ClassObject) : p.Later changing (p.addClass c) :=
  ⟨rfl, rfl, id, id, id, getElem?_push_of_some, .refl _, fun _ _ _ => id⟩

theorem Twin.addClass (h : p.Twin) {c : ClassObject}
    (hc : ∀ name method, c.methods.find? name = some method → p.Closes [["this"]] method) :
    (p.addClass c).Twin := by
  have hl : p.Later 0 (p.addClass c) := p.later_addClass c
  refine h.of_objects hl rfl rfl rfl rfl h.world ?_
    (fun _ _ _ _ hi hv => (h.safeFields hi hv).later hl) fun id c' name method hc' hm => ?_
  · simp only [Store.objects, Heap.withoutFrames, Pair.addClass, Store.addClass, Heap.addClass,
      h.functions_map, h.classes, h.instances]
  · have hpush : (p.store.classes.push c)[id]? = some c' := hc'
    rw [Array.getElem?_push] at hpush
    split at hpush
    next =>
      cases hpush
      exact (hc name method hm).later hl
    next => exact (h.methods hpush hm).later hl

def addInstance (p : Pair) (id : ClassId) : Pair :=
  { p with
    machine := { p.machine with heap := (p.machine.heap.addInstance id).2 }
    store := (p.store.addInstance id).2 }

theorem later_addInstance (p : Pair) (c : ClassId) : p.Later changing (p.addInstance c) :=
  ⟨rfl, rfl, id, id, id, id, .refl _, fun _ _ _ => id⟩

theorem Twin.addInstance (h : p.Twin) (id : ClassId) : (p.addInstance id).Twin := by
  have hl : p.Later 0 (p.addInstance id) := p.later_addInstance id
  refine h.of_objects hl rfl rfl rfl rfl h.world ?_ (fun id' i name v hi hv => ?_)
    fun _ _ _ _ hc hm => (h.methods hc hm).later hl
  · simp only [Store.objects, Heap.withoutFrames, Pair.addInstance, Store.addInstance,
      Heap.addInstance, h.functions_map, h.classes, h.instances]
  · have hpush : (p.store.instances.push ⟨id, []⟩)[id']? = some i := hi
    rw [Array.getElem?_push] at hpush
    split at hpush
    next =>
      cases hpush
      cases hv
    next => exact (h.safeFields hpush hv).later hl

def setField (p : Pair) (id : InstanceId) (name : String) (v : Value) : Pair :=
  { p with
    machine := { p.machine with heap := p.machine.heap.setField id name v }
    store := { p.store with
      instances := p.store.instances.modify id fun i =>
        { i with fields := i.fields.insert name v } } }

theorem later_setField (p : Pair) (id : InstanceId) (name : String) (v : Value) :
    p.Later changing (p.setField id name v) :=
  ⟨rfl, rfl, fun h => h, fun h => h, fun h => h, fun h => h, .refl _, fun _ _ _ h => h⟩

theorem Twin.setField (h : p.Twin) (id : InstanceId) (name : String) {v : Value}
    (hv : p.Safe v) : (p.setField id name v).Twin := by
  have hl : p.Later 0 (p.setField id name v) := p.later_setField id name v
  refine h.of_objects hl rfl rfl rfl rfl h.world ?_ (fun id' i other w hi hw => ?_)
    fun _ _ _ _ hc hm => (h.methods hc hm).later hl
  · simp only [Store.objects, Heap.withoutFrames, Pair.setField, Heap.setField, h.functions_map,
      h.classes, h.instances]
  · have hmodify : (p.store.instances.modify id fun i =>
        { i with fields := i.fields.insert name v })[id']? = some i := hi
    rw [Array.getElem?_modify] at hmodify
    split at hmodify
    next =>
      obtain ⟨i₀, hi₀, rfl⟩ := Option.map_eq_some_iff.1 hmodify
      have hfind : (i₀.fields.insert name v).find? other = some w := hw
      rw [Bindings.find?_insert] at hfind
      split at hfind
      next =>
        cases hfind
        exact hv.later hl
      next => exact (h.safeFields hi₀ hfind).later hl
    next => exact (h.safeFields hmodify hw).later hl

/-! Frames and cells. -/

def addFrame (p : Pair) (outer : FrameId) : Pair :=
  { p with machine := { p.machine with heap := (p.machine.heap.addFrame outer).2 } }

theorem later_addFrame (p : Pair) (outer : FrameId) : p.Later changing (p.addFrame outer) :=
  ⟨rfl, rfl, id, id, id, id, .addChild _ _, fun _ _ _ h => (Frames.find?_addChild _ _ _ _).trans h⟩

theorem Twin.addFrame (h : p.Twin) (outer : FrameId) : (p.addFrame outer).Twin := by
  have hl : p.Later 0 (p.addFrame outer) := p.later_addFrame outer
  refine h.of_cells hl rfl rfl rfl rfl ?_ h.size (fun c g name hc => ?_) (fun _ _ _ => h.apart)
    (fun _ _ hv => (h.safeCells hv).later hl) fun _ _ hv => (h.safeGlobals hv).later hl
  · exact (Frames.get?_addChild_of_lt (Frames.get?_eq_some_lt h.globals)).trans h.globals
  · obtain ⟨hg, v, hv, hf⟩ := h.cells hc
    exact ⟨hg, v, hv, (Frames.find?_addChild _ _ _ _).trans hf⟩

/-- The name of a cell gets another value. -/
def bindCell (p : Pair) (c : Cell) (place : FrameId × String) (v : Value) : Pair :=
  { p with
    machine := p.machine.bind place.1 place.2 v
    store := { p.store with cells := p.store.cells.modify c fun _ => v } }

theorem later_bindCell (h : p.Twin) {c : Cell} {place : FrameId × String}
    (hc : p.places[c]? = some place) (v : Value) : p.Later changing (p.bindCell c place v) := by
  refine ⟨rfl, rfl, id, id, id, id, .bind _ _ _ _, fun {f name} _ _ _ hn => ?_⟩
  obtain ⟨-, w, -, hw⟩ := h.cells hc
  refine (Frames.find?_bind_ne ?_).trans hn
  rw [← Classical.not_and_iff_not_or_not]
  rintro ⟨rfl, rfl⟩
  rw [hw] at hn
  cases hn

theorem Twin.bindCell (h : p.Twin) {c : Cell} {place : FrameId × String}
    (hc : p.places[c]? = some place) {v : Value} (hv : p.Safe v) : (p.bindCell c place v).Twin := by
  have hl : p.Later 0 (p.bindCell c place v) := later_bindCell h hc v
  obtain ⟨hg, w, hw, hf⟩ := h.cells hc
  refine h.of_cells hl rfl rfl rfl rfl ?_ ?_ (fun c' g name hc' => ?_) (fun _ _ _ => h.apart)
    (fun c' v' hv' => ?_) fun _ _ hv => (h.safeGlobals hv).later hl
  · exact (Frames.get?_bind_ne (Ne.symm hg)).trans h.globals
  · simpa [Pair.bindCell] using h.size
  · have hc' : p.places[c']? = some (g, name) := hc'
    obtain ⟨hg', v', hv', hf'⟩ := h.cells hc'
    refine ⟨hg', ?_⟩
    have hcells : (p.bindCell c place v).store.cells[c']? =
        (if c = c' then p.store.cells[c']?.map (fun _ => v) else p.store.cells[c']?) :=
      Array.getElem?_modify
    have hframes : (p.bindCell c place v).frames.find? g name =
        if g = place.1 ∧ name = place.2 then some v else p.frames.find? g name :=
      Frames.find?_bind (Frames.find?_eq_some_lt hf)
    by_cases he : c = c'
    · subst he
      rw [hc] at hc'
      cases hc'
      exact ⟨v, by rw [hcells, if_pos rfl, hv']; rfl, by rw [hframes, if_pos ⟨rfl, rfl⟩]⟩
    · refine ⟨v', by rw [hcells, if_neg he, hv'], ?_⟩
      rw [hframes, if_neg ?_, hf']
      rintro ⟨rfl, rfl⟩
      exact he (h.apart hc hc')
  · have hmodify : (p.store.cells.modify c fun _ => v)[c']? = some v' := hv'
    rw [Array.getElem?_modify] at hmodify
    split at hmodify
    next =>
      obtain ⟨-, -, rfl⟩ := Option.map_eq_some_iff.1 hmodify
      exact hv.later hl
    next => exact (h.safeCells hmodify).later hl

/-- A frame gets a new name, which a new cell stands for. -/
def addCell (p : Pair) (g : FrameId) (name : String) (v : Value) : Pair :=
  ⟨p.machine.bind g name v, (p.store.addCell v).2, p.places.push (g, name)⟩

theorem later_addCell (p : Pair) (g : FrameId) (name : String) (v : Value) :
    p.Later g (p.addCell g name v) :=
  ⟨rfl, rfl, getElem?_push_of_some, id, id, id, .bind _ _ _ _,
    fun _ _ hne hn => (Frames.find?_bind_ne (.inl hne)).trans hn⟩

theorem Twin.addCell (h : p.Twin) {g : FrameId} {name : String} {v : Value}
    (hg : g ≠ p.machine.globals) (hlt : g < p.frames.size) (hn : p.frames.find? g name = none)
    (hv : (p.addCell g name v).Safe v) : (p.addCell g name v).Twin := by
  have hl : p.Later g (p.addCell g name v) := p.later_addCell g name v
  have hfresh {c : Cell} : p.places[c]? ≠ some (g, name) := by
    intro hc
    obtain ⟨-, w, -, hf⟩ := h.cells hc
    rw [hn] at hf
    cases hf
  have hplaces (c : Cell) : (p.addCell g name v).places[c]? =
      if c = p.places.size then some (g, name) else p.places[c]? := Array.getElem?_push
  have hcells (c : Cell) : (p.addCell g name v).store.cells[c]? =
      if c = p.store.cells.size then some v else p.store.cells[c]? := Array.getElem?_push
  have hframes (g' : FrameId) (name' : String) : (p.addCell g name v).frames.find? g' name' =
      if g' = g ∧ name' = name then some v else p.frames.find? g' name' := Frames.find?_bind hlt
  refine h.of_cells hl rfl rfl rfl rfl ?_ ?_ (fun c g' name' hc => ?_) (fun c c' place hc hc' => ?_)
    (fun c v' hc => ?_) fun _ _ hv => (h.safeGlobals hv).later hl
  · exact (Frames.get?_bind_ne (Ne.symm hg)).trans h.globals
  · simp [Pair.addCell, Store.addCell, h.size]
  · rw [hplaces] at hc
    rw [hcells, hframes]
    split at hc
    next he =>
      cases hc
      exact ⟨hg, v, by rw [if_pos (he.trans h.size)], by rw [if_pos ⟨rfl, rfl⟩]⟩
    next he =>
      obtain ⟨hg', v', hv', hf'⟩ := h.cells hc
      refine ⟨hg', v', by rw [if_neg (h.size ▸ he), hv'], ?_⟩
      rw [if_neg ?_, hf']
      rintro ⟨rfl, rfl⟩
      exact hfresh hc
  · rw [hplaces] at hc hc'
    split at hc <;> split at hc'
    next e e' => rw [e, e']
    next => exact absurd (hc' ▸ hc.symm ▸ rfl) (hfresh (c := c'))
    next => exact absurd (hc ▸ hc'.symm ▸ rfl) (hfresh (c := c))
    next => exact h.apart hc hc'
  · rw [hcells] at hc
    split at hc
    next =>
      cases hc
      exact hv
    next => exact (h.safeCells hc).later hl

/-- A global name gets a value. -/
def bindGlobal (p : Pair) (name : String) (v : Value) : Pair :=
  { p with
    machine := p.machine.bind p.machine.globals name v
    store := { p.store with globals := p.store.globals.insert name v } }

theorem later_bindGlobal (p : Pair) (name : String) (v : Value) :
    p.Later changing (p.bindGlobal name v) :=
  ⟨rfl, rfl, id, id, id, id, .bind _ _ _ _,
    fun _ hg _ hn => (Frames.find?_bind_ne (.inl hg)).trans hn⟩

theorem Twin.bindGlobal (h : p.Twin) (name : String) {v : Value}
    (hv : (p.bindGlobal name v).Safe v) : (p.bindGlobal name v).Twin := by
  have hl : p.Later 0 (p.bindGlobal name v) := p.later_bindGlobal name v
  refine h.of_cells hl rfl rfl rfl rfl ?_ h.size (fun c g name' hc => ?_) (fun _ _ _ => h.apart)
    (fun _ _ hv => (h.safeCells hv).later hl) fun name' v' hv' => ?_
  · exact Frames.get?_bind_self h.globals
  · obtain ⟨hg, v', hv', hf⟩ := h.cells hc
    exact ⟨hg, v', hv', (Frames.find?_bind_ne (.inl hg)).trans hf⟩
  · have hfind : (p.store.globals.insert name v).find? name' = some v' := hv'
    rw [Bindings.find?_insert] at hfind
    split at hfind
    next =>
      cases hfind
      exact hv
    next => exact (h.safeGlobals hfind).later hl

end Lox.Lexical.Pair
