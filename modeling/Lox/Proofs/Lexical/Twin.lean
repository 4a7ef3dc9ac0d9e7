import Lox.Evaluation
import Lox.Proofs.Frames
import Lox.Proofs.Lexical.Store
import Lox.Proofs.Scope.Placed

/-! A machine and a store that are in the same state: every cell of the store is a name in a frame
of the machine. -/
namespace Lox

open Grammar (Context)

namespace Heap

/-- What is left of a heap where no frame counts. -/
def withoutFrames (h : Heap) : Heap :=
  { h with frames := .empty, functions := h.functions.map fun f => ⟨f.decl, 0⟩ }

theorem function_decl_withoutFrames (h : Heap) (id : FunctionId) :
    (h.withoutFrames.function id).decl = (h.function id).decl := by
  simp only [function, withoutFrames, Array.getElem?_map]
  cases h.functions[id]? <;> rfl

theorem classArity_withoutFrames (h : Heap) (id : ClassId) :
    h.withoutFrames.classArity id = h.classArity id := by
  have hi : h.withoutFrames.initializer? id = h.initializer? id := rfl
  unfold classArity
  rw [hi]
  cases h.initializer? id with
  | none => rfl
  | some method => simp only [Function.arity, function_decl_withoutFrames]

end Heap

theorem Value.text_withoutFrames (h : Heap) (v : Value) : v.text h.withoutFrames = v.text h := by
  cases v with
  | function id => simp only [Value.text, Heap.function_decl_withoutFrames]
  | _ => rfl

theorem Callable.arity_withoutFrames (h : Heap) (c : Callable) :
    c.arity h.withoutFrames = c.arity h := by
  cases c with
  | native => rfl
  | function id => simp only [Callable.arity, Function.arity, Heap.function_decl_withoutFrames]
  | classObject id => exact h.classArity_withoutFrames id

namespace Lexical

/-- A machine, a store, and for every cell of the store the frame and the name it stands for. -/
structure Pair where
  machine : Machine
  store : Store
  places : Array (FrameId × String)

namespace Pair

variable {p p' p'' : Pair} {env : Env} {f : FrameId} {vis : Visible}

abbrev frames (p : Pair) : Frames := p.machine.heap.frames

/-- Seen from the frame `f`, the visible names lie where their depths say, and `env` has the cells
that stand for them. -/
structure Sees (p : Pair) (env : Env) (f : FrameId) (vis : Visible) : Prop where
  lt : f < p.frames.size
  root : p.frames.rootOf f = p.machine.globals
  top : vis = [] → f = p.machine.globals ∧ env = .top
  inner : vis ≠ [] → f ≠ p.machine.globals ∧ env ≠ .top
  found {name : String} {n : Nat} : vis.distance? name = some n →
    ∃ g c, p.frames.ancestor? f n = some g ∧ env.find? name = some c ∧
      p.places[c]? = some (g, name)
  absent {name : String} : vis.distance? name = none → env.find? name = none

/-- The function is the same on both sides, and its body is placed where the names of its making
and the scopes `extra` are visible. -/
def Closes (p : Pair) (extra : Visible) (id : FunctionId) : Prop :=
  ∃ f c, p.machine.heap.functions[id]? = some f ∧ p.store.functions[id]? = some c ∧
    c.decl = f.decl ∧
      ∃ ctx vis, p.Sees c.env f.closure vis ∧ functionPlaced ctx (extra ++ vis) f.decl

/-- A value that may be used: no method is a value before it is bound. -/
def Safe (p : Pair) : Value → Prop
  | .function id => p.Closes [] id
  | .classObject id => ∃ c, p.store.classes[id]? = some c
  | _ => True

/-- The two sides agree, and what they hold is safe. -/
structure Twin (p : Pair) : Prop where
  world : p.store.toWorld = p.machine.toWorld
  objects : p.store.objects = p.machine.heap.withoutFrames
  globals : p.frames.get? p.machine.globals = some ⟨p.store.globals, none, none⟩
  size : p.places.size = p.store.cells.size
  cells {c : Cell} {g : FrameId} {name : String} : p.places[c]? = some (g, name) →
    g ≠ p.machine.globals ∧ ∃ v, p.store.cells[c]? = some v ∧ p.frames.find? g name = some v
  apart {c c' : Cell} {place : FrameId × String} :
    p.places[c]? = some place → p.places[c']? = some place → c = c'
  safeCells {c : Cell} {v : Value} : p.store.cells[c]? = some v → p.Safe v
  safeGlobals {name : String} {v : Value} : p.store.globals.find? name = some v → p.Safe v
  safeFields {id : InstanceId} {i : Instance} {name : String} {v : Value} :
    p.store.instances[id]? = some i → i.fields.find? name = some v → p.Safe v
  methods {id : ClassId} {c : ClassObject} {name : String} {method : FunctionId} :
    p.store.classes[id]? = some c → c.methods.find? name = some method →
      p.Closes [["this"]] method

/-- What came of `p` later: frames keep what is around them, cells their place, functions their
body, and beside the globals only the frame `changing` may have gained names. -/
structure Later (changing : FrameId) (p p' : Pair) : Prop where
  globals : p'.machine.globals = p.machine.globals
  current : p'.machine.current = p.machine.current
  places {c : Cell} {place : FrameId × String} :
    p.places[c]? = some place → p'.places[c]? = some place
  functions {id : FunctionId} {f : Function} :
    p.machine.heap.functions[id]? = some f → p'.machine.heap.functions[id]? = some f
  closures {id : FunctionId} {c : Closure} :
    p.store.functions[id]? = some c → p'.store.functions[id]? = some c
  classes {id : ClassId} {c : ClassObject} :
    p.store.classes[id]? = some c → p'.store.classes[id]? = some c
  frames : p.frames.Extends p'.frames
  names {f : FrameId} {name : String} : f < p.frames.size → f ≠ p.machine.globals →
    f ≠ changing → p.frames.find? f name = none → p'.frames.find? f name = none

namespace Later

variable {changing : FrameId}

theorem refl (p : Pair) : p.Later changing p :=
  ⟨rfl, rfl, id, id, id, id, .refl _, fun _ _ _ => id⟩

theorem trans (h : p.Later changing p') (h' : p'.Later changing p'') : p.Later changing p'' where
  globals := h'.globals.trans h.globals
  current := h'.current.trans h.current
  places hc := h'.places (h.places hc)
  functions hf := h'.functions (h.functions hf)
  closures hc := h'.closures (h.closures hc)
  classes hc := h'.classes (h.classes hc)
  frames := h.frames.trans h'.frames
  names hlt hg hc hn :=
    h'.names (h.frames.lt hlt) (h.globals ▸ hg) hc (h.names hlt hg hc hn)

/-- No frame but the globals gains a name where none is named. -/
theorem weaken (h : p.Later p.machine.globals p') : p.Later changing p' :=
  { h with names := fun hlt hg _ hn => h.names hlt hg hg hn }

end Later

theorem Sees.later {changing : FrameId} (hs : p.Sees env f vis) (h : p.Later changing p') :
    p'.Sees env f vis where
  lt := h.frames.lt hs.lt
  root := by rw [h.frames.rootOf hs.lt, hs.root, h.globals]
  top hv := h.globals ▸ hs.top hv
  inner hv := h.globals ▸ hs.inner hv
  found hd := by
    obtain ⟨g, c, ha, hc, hp⟩ := hs.found hd
    exact ⟨g, c, h.frames.ancestor? ha, hc, h.places hp⟩
  absent := hs.absent

theorem Sees.onward {changing : FrameId} (hs : p.Sees env p.machine.current vis)
    (h : p.Later changing p') : p'.Sees env p'.machine.current vis := by
  rw [h.current]
  exact hs.later h

theorem Closes.later {changing : FrameId} {extra : Visible} {id : FunctionId}
    (hc : p.Closes extra id) (h : p.Later changing p') : p'.Closes extra id := by
  rcases hc with ⟨f, c, hf, hc, hd, ctx, vis, hs, hp⟩
  exact ⟨f, c, h.functions hf, h.closures hc, hd, ctx, vis, hs.later h, hp⟩

theorem Safe.later {changing : FrameId} {v : Value} (hv : p.Safe v) (h : p.Later changing p') :
    p'.Safe v := by
  cases v with
  | function id => exact Closes.later hv h
  | classObject id =>
    rcases hv with ⟨c, hc⟩
    exact ⟨c, h.classes hc⟩
  | _ => trivial

/-- A frame that sees the visible names and of its own has no others. -/
structure Inside (p : Pair) (env : Env) (f : FrameId) (vis : Visible) : Prop where
  sees : p.Sees env f vis
  lacks {names : List String} {outer : Visible} {name : String} : vis = names :: outer →
    name ∉ names → p.frames.find? f name = none

theorem Inside.later (hi : p.Inside env f vis) (h : p.Later p.machine.globals p') :
    p'.Inside env f vis where
  sees := hi.sees.later h
  lacks hv hn := by
    obtain ⟨hg, -⟩ := hi.sees.inner (by rw [hv]; simp)
    exact h.names hi.sees.lt hg hg (hi.lacks hv hn)

end Pair
end Lexical
end Lox
