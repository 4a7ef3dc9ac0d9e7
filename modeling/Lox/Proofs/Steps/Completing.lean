import Mathlib
import Lox.Proofs.Fuel
import Lox.Proofs.Steps.Step

/-! Runs that have as much fuel as they need: which states they are done in, by the parts of what
they run. -/
namespace Lox
open Lox.Action

variable {α β : Type}

/-- The result of an action that has one. -/
def Answer.result? {σ : Type} : Answer σ α → Option α
  | .done a _ => some a
  | .failed _ _ | .outOfFuel => none

theorem Answer.result?_eq_some {σ : Type} {r : Answer σ α} {a : α} :
    r.result? = some a ↔ ∃ s, r = .done a s := by
  cases r <;> simp [Answer.result?]

theorem Answer.onState_eq_done {σ τ : Type} {g : σ → τ} {r : Answer σ α} {a : α} {t : τ} :
    r.onState g = .done a t ↔ ∃ s, r = .done a s ∧ t = g s := by
  cases r with
  | done b s => simp [Answer.onState, and_assoc, eq_comm]
  | failed d s => simp [Answer.onState]
  | outOfFuel => simp [Answer.onState]

namespace Action

theorem bind_eq_done {σ : Type} {x : Action σ α} {f : α → Action σ β} {s s' : σ} {b : β} :
    (x >>= f) s = .done b s' ↔ ∃ a s₁, x s = .done a s₁ ∧ f a s₁ = .done b s' := by
  rw [bind_apply]
  cases x s with
  | done a s₁ => simp
  | failed d s₁ => simp
  | outOfFuel => simp

/-- With enough fuel, `x` started in `m` is done in `m'`. -/
def Completes (x : Nat → Action Machine α) (m : Machine) (a : α) (m' : Machine) : Prop :=
  ∃ fuel, x fuel m = .done a m'

/-- More fuel changes no answer of `x`. -/
def Settles (x : Nat → Action Machine α) : Prop := ∀ fuel, (x fuel).Within (x (fuel + 1))

namespace Settles

variable {x y : Nat → Action Machine α}

theorem const (x : Action Machine α) : Settles fun _ => x := fun _ => .refl x

theorem bind {f : Nat → α → Action Machine β} (hx : Settles x) (hf : ∀ a, Settles (f · a)) :
    Settles fun fuel => x fuel >>= f fuel :=
  fun fuel => .bind (hx fuel) fun a => hf a fuel

theorem ite {p : Prop} [Decidable p] (hx : Settles x) (hy : Settles y) :
    Settles fun fuel => if p then x fuel else y fuel :=
  fun fuel => .ite (hx fuel) (hy fuel)

theorem within_of_le (hx : Settles x) {fuel fuel' : Nat} (h : fuel ≤ fuel') :
    (x fuel).Within (x fuel') := by
  induction h with
  | refl => exact .refl _
  | step _ ih => exact ih.trans (hx _)

theorem done_of_le (hx : Settles x) {fuel fuel' : Nat} (h : fuel ≤ fuel') {m m' : Machine} {a : α}
    (hdone : x fuel m = .done a m') : x fuel' m = .done a m' := by
  have hsame := hx.within_of_le h m
  rw [hdone] at hsame
  exact hsame nofun

/-- The first unit of fuel pays for the node alone. -/
theorem completes_succ (hx : Settles x) {m m' : Machine} {a : α} :
    Completes (fun fuel => x (fuel + 1)) m a m' ↔ Completes x m a m' :=
  ⟨fun ⟨fuel, h⟩ => ⟨fuel + 1, h⟩, fun ⟨fuel, h⟩ => ⟨fuel, hx.done_of_le fuel.le_succ h⟩⟩

end Settles

theorem completes_const {x : Action Machine α} {m m' : Machine} {a : α} :
    Completes (fun _ => x) m a m' ↔ x m = .done a m' :=
  ⟨fun ⟨_, h⟩ => h, fun h => ⟨0, h⟩⟩

theorem completes_pure {a b : α} {m m' : Machine} :
    Completes (fun _ => Pure.pure a) m b m' ↔ b = a ∧ m' = m := by
  rw [completes_const, pure_apply, Answer.done.injEq, eq_comm, @eq_comm _ m]

theorem completes_bind {x : Nat → Action Machine α} {f : Nat → α → Action Machine β}
    (hx : Settles x) (hf : ∀ a, Settles (f · a)) {m m' : Machine} {b : β} :
    Completes (fun fuel => x fuel >>= f fuel) m b m' ↔
      ∃ a m₁, Completes x m a m₁ ∧ Completes (f · a) m₁ b m' := by
  constructor
  · rintro ⟨fuel, h⟩
    obtain ⟨a, m₁, hr, h⟩ := bind_eq_done.1 h
    exact ⟨a, m₁, ⟨fuel, hr⟩, fuel, h⟩
  · rintro ⟨a, m₁, ⟨fuel, hr⟩, fuel', h⟩
    exact ⟨max fuel fuel', bind_eq_done.2
      ⟨a, m₁, hx.done_of_le (le_max_left _ _) hr, (hf a).done_of_le (le_max_right _ _) h⟩⟩

end Action

namespace Machine

/-- The machine inside a new frame, which the current one encloses. -/
def entered (m : Machine) : Machine :=
  { m with heap := (m.heap.addFrame m.current).2, current := (m.heap.addFrame m.current).1 }

theorem inNewFrame_apply (x : Action Machine α) (m : Machine) :
    inNewFrame x m = (x m.entered).onState fun m' => { m' with current := m.current } :=
  inFrame_apply _ x _

theorem completes_inNewFrame {x : Nat → Action Machine α} {m m' : Machine} {a : α} :
    Completes (fun fuel => inNewFrame (x fuel)) m a m' ↔
      ∃ m₁, Completes x m.entered a m₁ ∧ m' = { m₁ with current := m.current } := by
  simp only [Completes, inNewFrame_apply, Answer.onState_eq_done]
  constructor
  · rintro ⟨fuel, m₁, h, he⟩
    exact ⟨m₁, ⟨fuel, h⟩, he⟩
  · rintro ⟨m₁, ⟨fuel, h⟩, he⟩
    exact ⟨fuel, m₁, h, he⟩

end Machine

/-! Statements with enough fuel. -/

theorem settles_evaluate (e : Expr) : Settles (evaluate · e) := fun fuel => (steady fuel).evaluate e

theorem settles_execute (s : Stmt) : Settles (execute · s) := fun fuel => (steady fuel).execute s

theorem settles_executeAll (statements : List Stmt) : Settles (executeAll · statements) :=
  fun fuel => (steady fuel).executeAll statements

theorem settles_declareVar (decl : VarDecl) : Settles (declareVar · decl) :=
  fun fuel => (steady fuel).declareVar decl

theorem settles_holds (condition : Option Expr) : Settles (holds · condition) :=
  fun fuel => (steady fuel).holds condition

theorem settles_step (increment : Option Expr) : Settles (step · increment) :=
  fun fuel => (steady fuel).step increment

theorem settles_loop (condition increment : Option Expr) (body : Stmt) :
    Settles (loop · condition increment body) :=
  fun fuel => (steady fuel).loop condition increment body

section
variable {m m' : Machine} {signal : Signal}

theorem completes_block {statements : List Stmt} {line : Nat} :
    Completes (execute · (.block statements line)) m signal m' ↔
      ∃ m₁, Completes (executeAll · statements) m.entered signal m₁ ∧
        m' = { m₁ with current := m.current } := by
  rw [← (settles_execute _).completes_succ]
  simp only [execute]
  exact Machine.completes_inNewFrame

theorem completes_ifThen {condition : Expr} {thenBranch : Stmt} {line : Nat} :
    Completes (execute · (.ifThen condition thenBranch line)) m signal m' ↔
      ∃ v m₁, Completes (evaluate · condition) m v m₁ ∧
        if v.isTruthy then Completes (execute · thenBranch) m₁ signal m'
        else signal = .normal ∧ m' = m₁ := by
  rw [← (settles_execute _).completes_succ]
  simp only [execute]
  rw [completes_bind (settles_evaluate condition)
    fun v => .ite (settles_execute thenBranch) (.const _)]
  refine exists₂_congr fun v m₁ => and_congr_right fun _ => ?_
  by_cases hv : v.isTruthy
  · simp only [hv, if_true]
  · simp only [hv, Bool.false_eq_true, if_false]
    exact completes_pure

theorem completes_ifElse {condition : Expr} {thenBranch elseBranch : Stmt} {line : Nat} :
    Completes (execute · (.ifElse condition thenBranch elseBranch line)) m signal m' ↔
      ∃ v m₁, Completes (evaluate · condition) m v m₁ ∧
        if v.isTruthy then Completes (execute · thenBranch) m₁ signal m'
        else Completes (execute · elseBranch) m₁ signal m' := by
  rw [← (settles_execute _).completes_succ]
  simp only [execute]
  rw [completes_bind (settles_evaluate condition)
    fun v => .ite (settles_execute thenBranch) (settles_execute elseBranch)]
  refine exists₂_congr fun v m₁ => and_congr_right fun _ => ?_
  by_cases hv : v.isTruthy
  · simp only [hv, if_true]
  · simp only [hv, Bool.false_eq_true, if_false]

theorem completes_executeAll_nil :
    Completes (executeAll · []) m signal m' ↔ signal = .normal ∧ m' = m := by
  rw [← (settles_executeAll _).completes_succ]
  simp only [executeAll]
  exact completes_pure

theorem completes_executeAll_cons {s : Stmt} {rest : List Stmt} :
    Completes (executeAll · (s :: rest)) m signal m' ↔
      (signal ≠ .normal ∧ Completes (execute · s) m signal m') ∨
      ∃ m₁, Completes (execute · s) m .normal m₁ ∧ Completes (executeAll · rest) m₁ signal m' := by
  rw [← (settles_executeAll _).completes_succ]
  simp only [executeAll]
  rw [completes_bind (settles_execute s) fun first => by
    cases first with
    | normal => exact settles_executeAll rest
    | exit e => exact .const _
    | returned v => exact .const _]
  constructor
  · rintro ⟨first, m₁, hs, hrest⟩
    cases first with
    | normal => exact .inr ⟨m₁, hs, hrest⟩
    | exit e =>
      obtain ⟨rfl, rfl⟩ := completes_pure.1 hrest
      exact .inl ⟨Signal.noConfusion, hs⟩
    | returned v =>
      obtain ⟨rfl, rfl⟩ := completes_pure.1 hrest
      exact .inl ⟨Signal.noConfusion, hs⟩
  · rintro (⟨hne, hs⟩ | ⟨m₁, hs, hrest⟩)
    · refine ⟨signal, m', hs, ?_⟩
      cases signal with
      | normal => exact absurd rfl hne
      | exit e => exact completes_pure.2 ⟨rfl, rfl⟩
      | returned v => exact completes_pure.2 ⟨rfl, rfl⟩
    · exact ⟨.normal, m₁, hs, hrest⟩

end

end Lox
