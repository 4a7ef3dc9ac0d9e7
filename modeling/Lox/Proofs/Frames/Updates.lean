import Lox.Proofs.Frames

/-! Frames as a store: what every access reads after an update through another one. Two accesses may
mean the same frame, by different ways through the frames between them. -/
namespace Lox.Frames

/-- The ways to give a name a value: in the frame itself, where it is declared or has one already,
or at a depth, where it has one already. -/
inductive Update where
  | define | assign
  | write (depth : Depth)

section
variable (fs : Frames) (f g : FrameId) (name other : String) (v : Value)

namespace Update

/-- Where the name is meant to be, seen from the frame. -/
def depth : Update → Depth
  | define | assign => .hops 0
  | write depth => depth

/-- The frames with the new value, if the update succeeds. -/
def run? : Update → Option Frames
  | define => fs.define f name v
  | assign => fs.assign f name v
  | write depth => (fs.write f depth name v).toOption

/-- The frames afterwards: an update that fails leaves them as they are. -/
def after (u : Update) : Frames := (u.run? fs f name v).getD fs

end Update

/-! A binding moves no frame. -/

theorem rootOf_bind : (fs.bind f name v).rootOf g = fs.rootOf g := by
  cases hg : fs.get? g with
  | none => simp [rootOf, get?_bind, hg]
  | some frame => exact (Extends.bind fs f name v).rootOf (get?_eq_some_lt hg)

theorem ancestor?_bind (n : Nat) : (fs.bind f name v).ancestor? g n = fs.ancestor? g n := by
  induction n generalizing g with
  | zero => rfl
  | succ n ih =>
    rw [ancestor?, ancestor?]
    cases hg : fs.get? g with
    | none => simp [get?_bind, hg]
    | some frame =>
      obtain ⟨values, hg'⟩ := Extends.bind fs f name v g frame hg
      rw [hg']
      obtain ⟨_, _ | outer, _⟩ := frame
      · rfl
      · exact ih outer

theorem target?_bind (depth : Depth) :
    (fs.bind f name v).target? g depth = fs.target? g depth := by
  cases depth with
  | global => exact congrArg some (rootOf_bind fs f g name v)
  | hops n => exact ancestor?_bind fs f g name v n

/-- A binding is read wherever its frame and its name are meant, and nowhere else. -/
theorem read_bind (h : f < fs.size) (depth : Depth) :
    (fs.bind f name v).read g depth other =
      if fs.target? g depth = some f ∧ other = name then .ok v else fs.read g depth other := by
  unfold read
  rw [target?_bind]
  cases fs.target? g depth with
  | none => simp
  | some frame =>
    by_cases hsame : frame = f ∧ other = name
    · simp [find?_bind h, hsame]
    · simp [find?_bind h, hsame]

/-! When an update fails. -/

theorem define_eq_none_iff :
    fs.define f name v = none ↔ fs.isRoot f = false ∧ (fs.find? f name).isSome := by
  unfold define accepts
  cases fs.isRoot f <;> cases fs.find? f name <;> simp

theorem assign_eq_none_iff : fs.assign f name v = none ↔ fs.find? f name = none := by
  unfold assign
  cases fs.find? f name <;> simp

/-- An assignment fails where a read would, with the same fault. -/
theorem write_eq_error_iff (depth : Depth) (fault : Fault) :
    fs.write f depth name v = .error fault ↔ fs.read f depth name = .error fault := by
  unfold write holder read
  cases fs.target? f depth with
  | none => simp [Except.map]
  | some frame => cases hv : fs.find? frame name <;> simp [hv, Except.map]

theorem read_eq_error_iff (depth : Depth) :
    (∃ fault, fs.read f depth name = .error fault) ↔
      ∀ frame, fs.target? f depth = some frame → fs.find? frame name = none := by
  unfold read
  cases fs.target? f depth with
  | none => simp
  | some frame => cases hv : fs.find? frame name <;> simp [hv]

end

section
variable {fs fs' : Frames} {f : FrameId} {name : String} {v : Value}

/-- An update that succeeds binds its name in the frame that it means. -/
theorem Update.run?_eq_some {u : Update} (hf : f < fs.size) (h : u.run? fs f name v = some fs') :
    ∃ frame, fs.target? f u.depth = some frame ∧ frame < fs.size ∧ fs' = fs.bind frame name v := by
  cases u with
  | define =>
    simp only [run?, Frames.define, Option.ite_none_right_eq_some, Option.some.injEq] at h
    exact ⟨f, rfl, hf, h.2.symm⟩
  | assign =>
    simp only [run?, Frames.assign, Option.ite_none_right_eq_some, Option.some.injEq] at h
    exact ⟨f, rfl, hf, h.2.symm⟩
  | write depth =>
    simp only [run?, Frames.write, holder] at h
    cases ht : fs.target? f depth with
    | none =>
      rw [ht] at h
      cases h
    | some frame =>
      rw [ht] at h
      cases hv : fs.find? frame name with
      | none =>
        simp only [hv] at h
        cases h
      | some old =>
        simp only [hv] at h
        cases h
        exact ⟨frame, ht, find?_eq_some_lt hv, rfl⟩

/-- After an update that succeeds the new value is read wherever the same frame and the same name
are meant; all else is read as before, the same faults included, and so is everything after an
update that fails. A declaration fails for a name that the frame has unless it is a root, an
assignment where the name is missing or the chain too short, which is where a read fails too. -/
theorem read_after_update (u : Update) (hf : f < fs.size) :
    (∀ g depth other, (u.after fs f name v).read g depth other =
      if (u.run? fs f name v).isSome ∧ fs.target? g depth = fs.target? f u.depth ∧ other = name
      then .ok v else fs.read g depth other) ∧
    (fs.define f name v = none ↔ fs.isRoot f = false ∧ (fs.find? f name).isSome) ∧
    (fs.assign f name v = none ↔ fs.find? f name = none) ∧
    (∀ depth fault,
      fs.write f depth name v = .error fault ↔ fs.read f depth name = .error fault) ∧
    ∀ depth, (∃ fault, fs.read f depth name = .error fault) ↔
      ∀ frame, fs.target? f depth = some frame → fs.find? frame name = none := by
  refine ⟨fun g depth other => ?_, define_eq_none_iff fs f name v, assign_eq_none_iff fs f name v,
    write_eq_error_iff fs f name v, read_eq_error_iff fs f name⟩
  unfold Update.after
  cases hr : u.run? fs f name v with
  | none => simp
  | some fs' =>
    obtain ⟨frame, ht, hframe, rfl⟩ := Update.run?_eq_some hf hr
    simp only [Option.getD_some, Option.isSome_some, true_and, ht]
    exact read_bind fs frame g name other v hframe depth

end

/-- Two scopes, one in the other, inside globals that have a name. -/
def nestedFrames : Frames :=
  let root := Frames.empty.addRoot
  let outer := root.2.addChild root.1
  (outer.2.addChild outer.1).2.bind root.1 "x" .nil

/-- What the inner scope writes as a global the outer one reads one link up. -/
theorem read_after_update_aliased :
    2 < nestedFrames.size ∧
      ((Update.write .global).after nestedFrames 2 "x" (.bool true)).read 1 (.hops 1) "x" =
        .ok (.bool true) := by
  have hf : 2 < nestedFrames.size := by decide
  refine ⟨hf, ?_⟩
  rw [(read_after_update (.write .global) hf).1]
  exact if_pos ⟨rfl, rfl, rfl⟩

end Lox.Frames
