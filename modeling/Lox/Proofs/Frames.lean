import Lox.Frames

/-! Frames after a binding and after a new frame. -/
namespace Lox.Frames

variable {fs fs' : Frames} {f g : FrameId} {name other : String} {v : Value}

theorem get?_eq_some_lt {frame : Frame} (h : fs.get? f = some frame) : f < fs.size := by
  simp only [get?, Array.getElem?_eq_some_iff] at h
  exact h.1

theorem get?_of_lt (h : f < fs.size) : ∃ frame, fs.get? f = some frame :=
  ⟨_, Array.getElem?_eq_getElem h⟩

theorem find?_eq_some_lt (h : fs.find? f name = some v) : f < fs.size := by
  obtain ⟨frame, hf, -⟩ := Option.bind_eq_some_iff.1 h
  exact get?_eq_some_lt hf

theorem get?_bind (fs : Frames) (f g : FrameId) (name : String) (v : Value) :
    (fs.bind f name v).get? g =
      (fs.get? g).map fun frame =>
        if g = f then { frame with values := frame.values.insert name v } else frame := by
  simp only [get?, bind, Array.getElem?_modify]
  by_cases h : f = g
  · simp [h]
  · have h' : ¬ g = f := fun e => h e.symm
    simp [h, h']

theorem get?_bind_self {frame : Frame} (h : fs.get? f = some frame) :
    (fs.bind f name v).get? f = some { frame with values := frame.values.insert name v } := by
  rw [get?_bind, h, Option.map_some, if_pos rfl]

theorem get?_bind_ne (h : g ≠ f) : (fs.bind f name v).get? g = fs.get? g := by
  simp [get?_bind, h]

theorem find?_bind_self (h : f < fs.size) : (fs.bind f name v).find? f name = some v := by
  obtain ⟨frame, hf⟩ := get?_of_lt h
  simp [find?, get?_bind, hf]

theorem find?_bind_ne (h : g ≠ f ∨ other ≠ name) :
    (fs.bind f name v).find? g other = fs.find? g other := by
  simp only [find?, get?_bind]
  cases fs.get? g with
  | none => rfl
  | some frame =>
    by_cases hg : g = f
    · have hn : other ≠ name := h.resolve_left (absurd hg)
      simp [hg, Bindings.find?_insert_ne _ _ hn]
    · simp [hg]

theorem find?_bind (h : f < fs.size) : (fs.bind f name v).find? g other =
    if g = f ∧ other = name then some v else fs.find? g other := by
  split
  next he => rw [he.1, he.2, find?_bind_self h]
  next hne => exact find?_bind_ne (Classical.not_and_iff_not_or_not.1 hne)

theorem get?_addChild (fs : Frames) (outer g : FrameId) :
    (fs.addChild outer).2.get? g =
      if g = fs.size then some ⟨[], some outer, some (fs.rootOf outer)⟩ else fs.get? g :=
  Array.getElem?_push

theorem size_addChild (fs : Frames) (outer : FrameId) :
    (fs.addChild outer).2.size = fs.size + 1 :=
  Array.size_push _

theorem get?_addChild_of_lt {outer : FrameId} (h : g < fs.size) :
    (fs.addChild outer).2.get? g = fs.get? g := by
  rw [get?_addChild, if_neg (Nat.ne_of_lt h)]

theorem find?_addChild (fs : Frames) (outer g : FrameId) (name : String) :
    (fs.addChild outer).2.find? g name = fs.find? g name := by
  simp only [find?, get?_addChild]
  split
  next h =>
    have hnone : fs.get? g = none := Array.getElem?_eq_none (Nat.le_of_eq h.symm)
    rw [hnone]
    rfl
  next => rfl

/-- Frames keep what is around them; what they bind may change. -/
def Extends (fs fs' : Frames) : Prop :=
  ∀ f frame, fs.get? f = some frame →
    ∃ values, fs'.get? f = some ⟨values, frame.enclosing, frame.root⟩

namespace Extends

theorem refl (fs : Frames) : fs.Extends fs := fun _ frame h => ⟨frame.values, h⟩

theorem trans {fs'' : Frames} (h : fs.Extends fs') (h' : fs'.Extends fs'') : fs.Extends fs'' := by
  intro f frame hf
  obtain ⟨values, hf'⟩ := h f frame hf
  obtain ⟨values', hf''⟩ := h' f _ hf'
  exact ⟨values', hf''⟩

theorem bind (fs : Frames) (f : FrameId) (name : String) (v : Value) :
    fs.Extends (fs.bind f name v) := by
  intro g frame hg
  rw [get?_bind, hg, Option.map_some]
  split <;> exact ⟨_, rfl⟩

theorem addChild (fs : Frames) (outer : FrameId) : fs.Extends (fs.addChild outer).2 := by
  intro g frame hg
  exact ⟨frame.values, by rw [get?_addChild_of_lt (get?_eq_some_lt hg), hg]⟩

theorem lt (h : fs.Extends fs') (hf : f < fs.size) : f < fs'.size := by
  obtain ⟨frame, hg⟩ := get?_of_lt hf
  obtain ⟨values, hg'⟩ := h f frame hg
  exact get?_eq_some_lt hg'

theorem rootOf (h : fs.Extends fs') (hf : f < fs.size) : fs'.rootOf f = fs.rootOf f := by
  obtain ⟨frame, hg⟩ := get?_of_lt hf
  obtain ⟨values, hg'⟩ := h f frame hg
  unfold Frames.rootOf
  rw [hg, hg']
  rcases frame with ⟨_, _, _ | root⟩ <;> rfl

theorem isRoot (h : fs.Extends fs') (hf : f < fs.size) : fs'.isRoot f = fs.isRoot f := by
  obtain ⟨frame, hg⟩ := get?_of_lt hf
  obtain ⟨values, hg'⟩ := h f frame hg
  unfold Frames.isRoot
  rw [hg, hg']
  rcases frame with ⟨_, _ | outer, _⟩ <;> rfl

theorem ancestor? (h : fs.Extends fs') {n : Nat} (ha : fs.ancestor? f n = some g) :
    fs'.ancestor? f n = some g := by
  induction n generalizing f with
  | zero => exact ha
  | succ n ih =>
    rw [Frames.ancestor?] at ha ⊢
    split at ha
    next values outer root hf =>
      obtain ⟨values', hf'⟩ := h f _ hf
      rw [hf']
      exact ih ha
    next => cases ha

end Extends
end Lox.Frames
