import Lox.Proofs.Frames.Updates

/-! Chains of frames: from every frame a finite way leads out to its root, which is the frame that
it remembers as such. -/
namespace Lox.Frames

variable {fs fs' fs'' : Frames} {f g outer root : FrameId} {frame : Frame}

theorem get?_addRoot (fs : Frames) (g : FrameId) :
    fs.addRoot.2.get? g = if g = fs.size then some ⟨[], none, none⟩ else fs.get? g :=
  Array.getElem?_push

theorem Extends.addRoot (fs : Frames) : fs.Extends fs.addRoot.2 := by
  intro g frame hg
  exact ⟨frame.values, by rw [get?_addRoot, if_neg (Nat.ne_of_lt (get?_eq_some_lt hg)), hg]⟩

/-! Nesting. -/

/-- The frame, which has the number `f`, lies in an earlier one, whose root it remembers. -/
structure Nested (fs : Frames) (f : FrameId) (frame : Frame) (outer : FrameId) : Prop where
  enclosing : frame.enclosing = some outer
  lt : outer < f
  root : frame.root = some (fs.rootOf outer)

theorem Nested.mono (h : fs.Nested f frame outer) (hext : fs.Extends fs') (hf : f ≤ fs.size) :
    fs'.Nested f frame outer where
  enclosing := h.enclosing
  lt := h.lt
  root := by rw [h.root, hext.rootOf (Nat.lt_of_lt_of_le h.lt hf)]

theorem Nested.rebind (h : fs.Nested f frame outer) (values : Bindings Value) :
    fs.Nested f { frame with values } outer :=
  ⟨h.enclosing, h.lt, h.root⟩

theorem nested_addChild (h : outer < fs.size) :
    (fs.addChild outer).2.Nested fs.size ⟨[], some outer, some (fs.rootOf outer)⟩ outer where
  enclosing := rfl
  lt := h
  root := by rw [(Extends.addChild fs outer).rootOf h]

/-- Every frame is a root or lies in an earlier one. -/
def Rooted (fs : Frames) : Prop := ∀ ⦃f frame⦄, fs.get? f = some frame →
  (frame.enclosing = none ∧ fs.rootOf f = f) ∨ ∃ outer, fs.Nested f frame outer

namespace Rooted

theorem empty : Frames.empty.Rooted := fun _ _ h => absurd h nofun

/-- What was in its place before is still, where the frames have only been added to. -/
theorem kept (h : fs.Rooted) (hext : fs.Extends fs') (hf : fs.get? f = some frame) :
    (frame.enclosing = none ∧ fs'.rootOf f = f) ∨ ∃ outer, fs'.Nested f frame outer := by
  have hlt := get?_eq_some_lt hf
  rcases h hf with ⟨he, hr⟩ | ⟨o, ho⟩
  · exact .inl ⟨he, by rw [hext.rootOf hlt, hr]⟩
  · exact .inr ⟨o, ho.mono hext (Nat.le_of_lt hlt)⟩

theorem addRoot (h : fs.Rooted) : fs.addRoot.2.Rooted := by
  intro g frame hg
  have hnew := hg
  rw [get?_addRoot] at hg
  split at hg
  next =>
    cases hg
    exact .inl ⟨rfl, by simp [rootOf, hnew]⟩
  next => exact h.kept (.addRoot fs) hg

theorem addChild (h : fs.Rooted) (ho : outer < fs.size) : (fs.addChild outer).2.Rooted := by
  intro g frame hg
  rw [get?_addChild] at hg
  split at hg
  next he =>
    cases hg
    exact .inr ⟨outer, he ▸ nested_addChild ho⟩
  next => exact h.kept (.addChild fs outer) hg

theorem bind (h : fs.Rooted) (f : FrameId) (name : String) (v : Value) :
    (fs.bind f name v).Rooted := by
  intro g frame hg
  rw [get?_bind] at hg
  obtain ⟨old, hold, rfl⟩ := Option.map_eq_some_iff.1 hg
  have hkept := h.kept (.bind fs f name v) hold
  split
  · exact hkept.imp_right fun ⟨o, ho⟩ => ⟨o, ho.rebind _⟩
  · exact hkept

end Rooted

/-! The chain of a frame. -/

theorem ancestor?_add (fs : Frames) (f : FrameId) (i j : Nat) :
    fs.ancestor? f (i + j) = (fs.ancestor? f i).bind (fs.ancestor? · j) := by
  induction i generalizing f with
  | zero => rw [Nat.zero_add]; rfl
  | succ i ih =>
    rw [Nat.succ_add, ancestor?, ancestor?]
    split
    next outer _ _ => exact ih outer
    next => rfl

/-- The chain of a frame has so many links and ends at `root`: that far and no farther there are
frames around it, the last of them is the only root, and it is the one that is known as the place of
globals. -/
structure Chain (fs : Frames) (f : FrameId) (length : Nat) (root : FrameId) : Prop where
  isSome_iff (j : Nat) : (fs.ancestor? f j).isSome ↔ j ≤ length
  add (i j : Nat) : fs.ancestor? f (i + j) = (fs.ancestor? f i).bind (fs.ancestor? · j)
  last : fs.ancestor? f length = some root
  isRoot_iff {j : Nat} {g : FrameId} : fs.ancestor? f j = some g → (fs.isRoot g ↔ j = length)
  global : fs.target? f .global = some root

theorem Chain.of_root (hf : fs.get? f = some frame) (he : frame.enclosing = none)
    (hr : fs.rootOf f = f) : fs.Chain f 0 f := by
  obtain ⟨values, enclosing, root⟩ := frame
  cases he
  refine ⟨fun j => ?_, ancestor?_add fs f, rfl, fun {j g} hg => ?_, congrArg some hr⟩
  · cases j with
    | zero => simp [ancestor?]
    | succ j => simp [ancestor?, hf]
  · cases j with
    | zero =>
      cases hg
      simp [isRoot, hf]
    | succ j => simp [ancestor?, hf] at hg

theorem Chain.inside {length : Nat} (hf : fs.get? f = some frame) (hn : fs.Nested f frame outer)
    (h : fs.Chain outer length root) : fs.Chain f (length + 1) root := by
  obtain ⟨values, enclosing, root?⟩ := frame
  obtain rfl : enclosing = some outer := hn.enclosing
  obtain rfl : root? = some (fs.rootOf outer) := hn.root
  have hout (j : Nat) : fs.ancestor? f (j + 1) = fs.ancestor? outer j := by
    rw [ancestor?, hf]
  refine ⟨fun j => ?_, ancestor?_add fs f, (hout length).trans h.last, fun {j g} hg => ?_, ?_⟩
  · cases j with
    | zero => simp [ancestor?]
    | succ j => rw [hout, h.isSome_iff, Nat.succ_le_succ_iff]
  · cases j with
    | zero =>
      cases hg
      simp [isRoot, hf]
    | succ j =>
      rw [hout] at hg
      rw [h.isRoot_iff hg, Nat.succ_inj]
  · have hroot : fs.rootOf outer = root := Option.some.inj h.global
    simp [target?, rootOf, hf] at hroot ⊢
    exact hroot

theorem Rooted.exists_chain (h : fs.Rooted) (hf : f < fs.size) :
    ∃ length root, fs.Chain f length root := by
  induction f using Nat.strongRecOn with
  | ind f ih =>
    obtain ⟨frame, hframe⟩ := get?_of_lt hf
    rcases h hframe with ⟨he, hr⟩ | ⟨outer, hn⟩
    · exact ⟨0, f, .of_root hframe he hr⟩
    · obtain ⟨length, root, hchain⟩ := ih outer hn.lt (Nat.lt_trans hn.lt hf)
      exact ⟨length + 1, root, hchain.inside hframe hn⟩

/-! What stays. -/

/-- The later frames have the chains of the earlier ones. -/
structure KeepsChains (fs fs' : Frames) : Prop where
  ancestor? {f : FrameId} : f < fs.size → ∀ j, fs'.ancestor? f j = fs.ancestor? f j
  target? {f : FrameId} : f < fs.size → ∀ depth, fs'.target? f depth = fs.target? f depth
  isRoot {f : FrameId} : f < fs.size → fs'.isRoot f = fs.isRoot f

theorem Rooted.keepsChains (h : fs.Rooted) (hext : fs.Extends fs') : fs.KeepsChains fs' := by
  have hancestor {f : FrameId} (hf : f < fs.size) (j : Nat) :
      fs'.ancestor? f j = fs.ancestor? f j := by
    induction j generalizing f with
    | zero => rfl
    | succ j ih =>
      obtain ⟨⟨values, enclosing, root⟩, hframe⟩ := get?_of_lt hf
      obtain ⟨values', hframe'⟩ := hext f _ hframe
      rw [Frames.ancestor?, Frames.ancestor?, hframe, hframe']
      cases enclosing with
      | none => rfl
      | some outer =>
        rcases h hframe with ⟨he, -⟩ | ⟨o, ho⟩
        · cases he
        · cases ho.enclosing
          exact ih (Nat.lt_trans ho.lt hf)
  refine ⟨hancestor, fun {f} hf depth => ?_, hext.isRoot⟩
  cases depth with
  | global => exact congrArg some (hext.rootOf hf)
  | hops n => exact hancestor hf n

/-! Histories of frames. -/

/-- What can be done to frames. -/
inductive Operation where
  | addRoot
  | addChild (outer : FrameId)
  | update (u : Update) (f : FrameId) (name : String) (v : Value)

/-- The frames after one operation, which can only be about frames that were made. -/
def Operation.run? (fs : Frames) : Operation → Option Frames
  | addRoot => some fs.addRoot.2
  | addChild outer => if outer < fs.size then some (fs.addChild outer).2 else none
  | update u f name v => if f < fs.size then some (u.after fs f name v) else none

def runAll? (fs : Frames) : List Operation → Option Frames
  | [] => some fs
  | op :: rest => (op.run? fs).bind fun fs => runAll? fs rest

theorem Update.after_eq (u : Update) (hf : f < fs.size) (name : String) (v : Value) :
    u.after fs f name v = fs ∨ ∃ frame, u.after fs f name v = fs.bind frame name v := by
  unfold after
  cases hr : u.run? fs f name v with
  | none => exact .inl rfl
  | some fs' =>
    obtain ⟨frame, -, -, rfl⟩ := run?_eq_some hf hr
    exact .inr ⟨frame, rfl⟩

theorem Operation.run?_rooted {op : Operation} (h : fs.Rooted) (hrun : op.run? fs = some fs') :
    fs'.Rooted ∧ fs.Extends fs' := by
  cases op with
  | addRoot =>
    cases hrun
    exact ⟨h.addRoot, .addRoot fs⟩
  | addChild outer =>
    obtain ⟨ho, he⟩ := Option.ite_none_right_eq_some.1 hrun
    cases he
    exact ⟨h.addChild ho, .addChild fs outer⟩
  | update u f name v =>
    obtain ⟨hf, he⟩ := Option.ite_none_right_eq_some.1 hrun
    cases he
    rcases u.after_eq hf name v with he | ⟨frame, he⟩
    · rw [he]
      exact ⟨h, .refl fs⟩
    · rw [he]
      exact ⟨h.bind frame name v, .bind fs frame name v⟩

theorem runAll?_rooted {ops : List Operation} (h : fs.Rooted) (hrun : fs.runAll? ops = some fs') :
    fs'.Rooted ∧ fs.Extends fs' := by
  induction ops generalizing fs with
  | nil =>
    cases hrun
    exact ⟨h, .refl _⟩
  | cons op rest ih =>
    obtain ⟨mid, hfirst, hrest⟩ := Option.bind_eq_some_iff.1 hrun
    obtain ⟨hmid, hext⟩ := op.run?_rooted h hfirst
    obtain ⟨hlast, hext'⟩ := ih hmid hrest
    exact ⟨hlast, hext.trans hext'⟩

end Lox.Frames
