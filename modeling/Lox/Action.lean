import Lox.Fault

/-! Actions: steps on a state that may fail or run out of fuel. -/
namespace Lox

/-- How an action ends; a failure leaves the state as it was when it arose, out of fuel leaves
none. -/
inductive Answer (σ α : Type) where
  | done (a : α) (s : σ)
  | failed (d : Diagnostic) (s : σ)
  | outOfFuel

def Action (σ α : Type) : Type := σ → Answer σ α

namespace Action

variable {σ α β : Type}

@[inline] protected def pure (a : α) : Action σ α := fun s => .done a s

@[inline] protected def bind (x : Action σ α) (f : α → Action σ β) : Action σ β := fun s =>
  match x s with
  | .done a s => f a s
  | .failed d s => .failed d s
  | .outOfFuel => .outOfFuel

instance : Monad (Action σ) where
  pure := Action.pure
  bind := Action.bind

@[simp] theorem pure_apply (a : α) (s : σ) : (pure a : Action σ α) s = .done a s := rfl

theorem bind_apply (x : Action σ α) (f : α → Action σ β) (s : σ) :
    (x >>= f) s = match x s with
      | .done a s => f a s
      | .failed d s => .failed d s
      | .outOfFuel => .outOfFuel := rfl

protected theorem bind_assoc {γ : Type} (x : Action σ α) (f : α → Action σ β)
    (g : β → Action σ γ) : x >>= f >>= g = x >>= fun a => f a >>= g := by
  funext s
  simp only [bind_apply]
  cases x s <;> rfl

def fuelSpent : Action σ α := fun _ => .outOfFuel

def fail (line : Nat) (f : Fault) : Action σ α := fun s => .failed ⟨line, f⟩ s

def failRuntime (line : Nat) (f : RuntimeFault) : Action σ α := fail line (.runtime f)

/-- The result of an operator, or its fault at `line`. -/
def lift (line : Nat) : Except RuntimeFault α → Action σ α
  | .ok a => pure a
  | .error f => failRuntime line f

def inspect (f : σ → α) : Action σ α := fun s => .done (f s) s

end Action
end Lox
