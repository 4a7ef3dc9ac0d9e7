import Lox.Proofs.Lexical.Operations

/-! Actions of a machine and of a store that do the same: they end alike, with values that go
together, and leave twins. -/
namespace Lox

/-- A fault that only a run can show and that the scopes do not rule out. -/
def Fault.IsDynamic : Fault → Prop
  | .runtime (.redeclared _) => False
  | .runtime (.undefinedVariable name) => name ≠ "this"
  | .runtime _ | .sinkFull => True
  | _ => False

namespace Lexical

variable {α α' β β' : Type}

/-- Two answers to actions on the two sides of `p`. -/
inductive Pair.Alike (p : Pair) (changing : FrameId) (post : α → β → Pair → Prop) :
    Answer Machine α → Answer Store β → Prop where
  | done {p' : Pair} {a : α} {b : β} : p'.Twin → p.Later changing p' → post a b p' →
    p.Alike changing post (.done a p'.machine) (.done b p'.store)
  | failed {p' : Pair} {d : Diagnostic} : p'.Twin → d.fault.IsDynamic →
    p.Alike changing post (.failed d p'.machine) (.failed d p'.store)
  | outOfFuel : p.Alike changing post .outOfFuel .outOfFuel

/-- The actions do the same on the two sides of `p`. -/
def Pair.Agrees (p : Pair) (changing : FrameId) (x : Action Machine α) (y : Action Store β)
    (post : α → β → Pair → Prop) : Prop :=
  p.Alike changing post (x p.machine) (y p.store)

namespace Pair

variable {p p' : Pair} {changing changing' : FrameId} {post post' : α → β → Pair → Prop}

theorem Agrees.pure {a : α} {b : β} (h : p.Twin) (hpost : post a b p) :
    p.Agrees changing (Pure.pure a) (Pure.pure b) post :=
  .done h (.refl p) hpost

theorem Agrees.fuelSpent : p.Agrees changing Action.fuelSpent Action.fuelSpent post := .outOfFuel

theorem Agrees.failRuntime (h : p.Twin) {line : Nat} {f : RuntimeFault}
    (hf : (Fault.runtime f).IsDynamic) :
    p.Agrees changing (Action.failRuntime line f) (Action.failRuntime line f) post :=
  .failed h hf

theorem Agrees.bind {x : Action Machine α} {y : Action Store β} {f : α → Action Machine α'}
    {g : β → Action Store β'} {after : α' → β' → Pair → Prop} (h : p.Agrees changing x y post)
    (hf : ∀ a b p', p'.Twin → p.Later changing p' → post a b p' →
      p'.Agrees changing (f a) (g b) after) : p.Agrees changing (x >>= f) (y >>= g) after := by
  unfold Agrees at h ⊢
  rw [Action.bind_apply, Action.bind_apply]
  generalize x p.machine = r at h
  generalize y p.store = r' at h
  cases h with
  | @done p' a b ht hl hpost =>
    have h := hf a b p' ht hl hpost
    unfold Agrees at h
    simp only
    generalize f a p'.machine = r at h
    generalize g b p'.store = r' at h
    cases h with
    | done ht' hl' hafter => exact .done ht' (hl.trans hl') hafter
    | failed ht' hd => exact .failed ht' hd
    | outOfFuel => exact .outOfFuel
  | failed ht hd => exact .failed ht hd
  | outOfFuel => exact .outOfFuel

/-- Looking at the two sides changes nothing. -/
theorem Agrees.inspect {γ δ : Type} {u : Machine → γ} {v : Store → δ} {f : γ → Action Machine α}
    {g : δ → Action Store β} (h : p.Agrees changing (f (u p.machine)) (g (v p.store)) post) :
    p.Agrees changing (Action.inspect u >>= f) (Action.inspect v >>= g) post := h

theorem Agrees.inspect_left {γ : Type} {u : Machine → γ} {f : γ → Action Machine α}
    {y : Action Store β} (h : p.Agrees changing (f (u p.machine)) y post) :
    p.Agrees changing (Action.inspect u >>= f) y post := h

theorem Agrees.weaken {x : Action Machine α} {y : Action Store β}
    (h : p.Agrees changing x y post) (hl : ∀ p', p.Later changing p' → p.Later changing' p')
    (hpost : ∀ a b p', p.Later changing p' → post a b p' → post' a b p') :
    p.Agrees changing' x y post' := by
  unfold Agrees at h ⊢
  generalize x p.machine = r at h
  generalize y p.store = r' at h
  cases h with
  | done ht hlater h => exact .done ht (hl _ hlater) (hpost _ _ _ hlater h)
  | failed ht hd => exact .failed ht hd
  | outOfFuel => exact .outOfFuel

theorem Agrees.imp {x : Action Machine α} {y : Action Store β} (h : p.Agrees changing x y post)
    (hpost : ∀ a b p', p.Later changing p' → post a b p' → post' a b p') :
    p.Agrees changing x y post' :=
  h.weaken (fun _ => id) hpost

/-- A change in front of two actions that do the same. -/
theorem Agrees.after {x : Action Machine α} {y : Action Store β} {r : Answer Machine α}
    {r' : Answer Store β} (h : p'.Agrees changing' x y post) (hr : r = x p'.machine)
    (hr' : r' = y p'.store) (hl : ∀ q, p'.Later changing' q → p.Later changing q) :
    p.Alike changing post r r' := by
  subst hr hr'
  unfold Agrees at h
  generalize x p'.machine = r at h ⊢
  generalize y p'.store = r' at h ⊢
  cases h with
  | done ht hlater h => exact .done ht (hl _ hlater) h
  | failed ht hd => exact .failed ht hd
  | outOfFuel => exact .outOfFuel

/-- A frame that was not there before may change as it likes. -/
theorem Later.through {p'' : Pair} {f : FrameId} (h : p.Later changing p') (hf : p.frames.size ≤ f)
    (h' : p'.Later f p'') : p.Later changing p'' where
  globals := h'.globals.trans h.globals
  current := h'.current.trans h.current
  places hc := h'.places (h.places hc)
  functions hf := h'.functions (h.functions hf)
  closures hc := h'.closures (h.closures hc)
  classes hc := h'.classes (h.classes hc)
  frames := h.frames.trans h'.frames
  names hlt hg hc hn :=
    h'.names (h.frames.lt hlt) (h.globals ▸ hg) (Nat.ne_of_lt (Nat.lt_of_lt_of_le hlt hf))
      (h.names hlt hg hc hn)

/-- Equal values that may be used. -/
def Same (v w : Value) (p : Pair) : Prop := w = v ∧ p.Safe v

end Pair
end Lexical
end Lox
