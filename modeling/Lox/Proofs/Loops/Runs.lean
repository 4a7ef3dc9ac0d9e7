import Mathlib
import Lox.Proofs.Steps.Completing
import Lox.Proofs.Steps.Restored

/-! Loops are made of rounds: a run of a loop, round by round, and what ends it. -/
namespace Lox
open Lox.Action

theorem Action.Restores.of_completes {α : Type} {x : Nat → Action Machine α}
    (hx : ∀ fuel, (x fuel).Restores) {m m' : Machine} {a : α} (h : Completes x m a m') :
    m.StandsAs m' := by
  obtain ⟨fuel, h⟩ := h
  refine hx fuel m m' ?_
  rw [h]
  rfl

structure LoopParts where
  init : ForInit
  condition : Option Expr
  increment : Option Expr
  body : Stmt

def Stmt.loop? : Stmt → Option LoopParts
  | .whileLoop condition body _ => some ⟨.nothing, some condition, none, body⟩
  | .forLoop init condition increment body _ => some ⟨init, condition, increment, body⟩
  | _ => none

namespace LoopParts

variable {l : LoopParts}

/-- What comes before the rounds. A declared variable has a frame of its own. -/
def begin (l : LoopParts) (fuel : Nat) : Action Machine Unit :=
  match l.init with
  | .nothing => pure ()
  | .evaluate e => do
    let _ ← evaluate fuel e
    pure ()
  | .declare decl => fun m => declareVar fuel decl m.entered

/-- Rounds of a loop up to its end, with the signal that each body ended with. A body that breaks or
returns ends the last round; one that continues or comes to its end is followed by the increment and
the next round. -/
inductive Rounds (l : LoopParts) : Machine → List Signal → Signal → Machine → Prop
  | stopped {m m' : Machine} : Completes (holds · l.condition) m false m' →
    Rounds l m [] .normal m'
  | broken {m m₁ m' : Machine} : Completes (holds · l.condition) m true m₁ →
    Completes (execute · l.body) m₁ (.exit .toEnd) m' → Rounds l m [.exit .toEnd] .normal m'
  | returned {m m₁ m' : Machine} {v : Value} : Completes (holds · l.condition) m true m₁ →
    Completes (execute · l.body) m₁ (.returned v) m' →
    Rounds l m [.returned v] (.returned v) m'
  | next {m m₁ m₂ m₃ m' : Machine} {ended signal : Signal} {signals : List Signal} :
    ended = .normal ∨ ended = .exit .toNext → Completes (holds · l.condition) m true m₁ →
    Completes (execute · l.body) m₁ ended m₂ → Completes (step · l.increment) m₂ () m₃ →
    Rounds l m₃ signals signal m' → Rounds l m (ended :: signals) signal m'

/-- A whole run of a loop, after which the frame of a declared variable is left. -/
def Runs (l : LoopParts) (m : Machine) (signals : List Signal) (signal : Signal) (m' : Machine) :
    Prop :=
  ∃ m₁ m₂, Completes l.begin m () m₁ ∧ l.Rounds m₁ signals signal m₂ ∧
    m' = { m₂ with current := m.current }

/-! Runs with enough fuel. -/

/-- The rounds of a loop as they are run. -/
def rounds (l : LoopParts) (fuel : Nat) : Action Machine Signal :=
  loop fuel l.condition l.increment l.body

theorem settles_rounds (l : LoopParts) : Settles l.rounds :=
  settles_loop l.condition l.increment l.body

theorem restores_rounds (l : LoopParts) (fuel : Nat) : (l.rounds fuel).Restores :=
  (Restores.inherited.matches_plain.evaluations fuel).loop l.condition l.increment l.body

/-- Where `x` leaves the current frame as it was, nothing has to make it current again. -/
theorem completes_behind (l : LoopParts) {x : Nat → Action Machine Unit} (hx : Settles x)
    (hstand : ∀ fuel, (x fuel).Restores) {y : Nat → Action Machine Signal}
    (hy : ∀ fuel, y fuel = x fuel >>= fun _ => l.rounds fuel) {m m' : Machine} {signal : Signal} :
    Completes y m signal m' ↔
      ∃ m₁ m₂, Completes x m () m₁ ∧ Completes l.rounds m₁ signal m₂ ∧
        m' = { m₂ with current := m.current } := by
  rw [funext hy, completes_bind hx fun _ => l.settles_rounds]
  constructor
  · rintro ⟨⟨⟩, m₁, hbegin, hrounds⟩
    have hcurrent := (Restores.of_completes l.restores_rounds hrounds).current.trans
      (Restores.of_completes hstand hbegin).current
    exact ⟨m₁, m', hbegin, hrounds, by rw [← hcurrent]⟩
  · rintro ⟨m₁, m₂, hbegin, hrounds, rfl⟩
    have hcurrent := (Restores.of_completes l.restores_rounds hrounds).current.trans
      (Restores.of_completes hstand hbegin).current
    exact ⟨(), m₁, hbegin, by rwa [← hcurrent]⟩

/-- A loop runs its rounds behind its beginning. -/
theorem completes_iff {s : Stmt} (hs : s.loop? = some l) {m m' : Machine} {signal : Signal} :
    Completes (execute · s) m signal m' ↔
      ∃ m₁ m₂, Completes l.begin m () m₁ ∧ Completes l.rounds m₁ signal m₂ ∧
        m' = { m₂ with current := m.current } := by
  rw [← (settles_execute _).completes_succ]
  have hpure (fuel : Nat) : (pure () : Action Machine Unit).Restores :=
    Restores.inherited.onHeap (.pure ())
  cases s with
  | whileLoop condition body line =>
    cases hs
    apply completes_behind ⟨.nothing, some condition, none, body⟩ (.const _) hpure
    exact fun _ => rfl
  | forLoop init condition increment body line =>
    cases hs
    cases init with
    | nothing =>
      apply completes_behind ⟨.nothing, condition, increment, body⟩ (.const _) hpure
      exact fun _ => rfl
    | evaluate e =>
      apply completes_behind ⟨.evaluate e, condition, increment, body⟩
        (.bind (settles_evaluate e) fun _ => .const _)
        fun fuel => Restores.inherited.bind (Restores.inherited.evaluate fuel e) fun _ => hpure fuel
      intro fuel
      rw [Action.bind_assoc]
      rfl
    | declare decl =>
      simp only [execute]
      rw [Machine.completes_inNewFrame]
      simp only [completes_bind (settles_declareVar decl)
        fun _ => settles_loop condition increment body]
      constructor
      · rintro ⟨m₂, ⟨⟨⟩, m₁, hbegin, hrounds⟩, rfl⟩
        exact ⟨m₁, m₂, hbegin, hrounds, rfl⟩
      · rintro ⟨m₁, m₂, hbegin, hrounds, rfl⟩
        exact ⟨m₂, ⟨(), m₁, hbegin, hrounds⟩, rfl⟩
  | _ => cases hs

/-- What a loop does behind its body. -/
def goOn (l : LoopParts) (fuel : Nat) : Signal → Action Machine Signal
  | .exit .toEnd => pure .normal
  | .returned v => pure (.returned v)
  | .exit .toNext | .normal => do
    let _ ← step fuel l.increment
    l.rounds fuel

theorem goOn_of_next (l : LoopParts) (fuel : Nat) {ended : Signal}
    (h : ended = .normal ∨ ended = .exit .toNext) :
    l.goOn fuel ended = step fuel l.increment >>= fun _ => l.rounds fuel := by
  rcases h with rfl | rfl <;> rfl

theorem settles_goOn (l : LoopParts) (ended : Signal) : Settles (l.goOn · ended) := by
  have hnext : Settles fun fuel => step fuel l.increment >>= fun _ => l.rounds fuel :=
    .bind (settles_step l.increment) fun _ => l.settles_rounds
  cases ended with
  | exit exit =>
    cases exit with
    | toEnd => exact .const _
    | toNext => exact hnext
  | returned v => exact .const _
  | normal => exact hnext

theorem rounds_succ (l : LoopParts) (fuel : Nat) :
    l.rounds (fuel + 1) = holds fuel l.condition >>= fun more =>
      if more then execute fuel l.body >>= l.goOn fuel else pure .normal := by
  rw [rounds, loop]
  congr 1
  funext more
  congr 2
  funext ended
  cases ended with
  | exit exit => cases exit <;> rfl
  | _ => rfl

theorem exists_rounds {signal : Signal} {m' : Machine} (fuel : Nat) :
    ∀ m, l.rounds fuel m = .done signal m' → ∃ signals, l.Rounds m signals signal m' := by
  induction fuel with
  | zero =>
    intro m h
    cases h
  | succ fuel ih =>
    intro m h
    rw [rounds_succ] at h
    obtain ⟨more, m₁, hholds, h⟩ := bind_eq_done.1 h
    replace hholds : Completes (holds · l.condition) m more m₁ := ⟨fuel, hholds⟩
    cases more with
    | false =>
      cases h
      exact ⟨[], .stopped hholds⟩
    | true =>
      obtain ⟨ended, m₂, hbody, h⟩ := bind_eq_done.1 h
      replace hbody : Completes (execute · l.body) m₁ ended m₂ := ⟨fuel, hbody⟩
      by_cases hnext : ended = .normal ∨ ended = .exit .toNext
      · rw [goOn_of_next l fuel hnext] at h
        obtain ⟨⟨⟩, m₃, hturn, h⟩ := bind_eq_done.1 h
        obtain ⟨signals, hrounds⟩ := ih m₃ h
        exact ⟨_, .next hnext hholds hbody ⟨fuel, hturn⟩ hrounds⟩
      · cases ended with
        | exit exit =>
          cases exit with
          | toEnd =>
            cases h
            exact ⟨_, .broken hholds hbody⟩
          | toNext => exact absurd (.inr rfl) hnext
        | returned v =>
          cases h
          exact ⟨_, .returned hholds hbody⟩
        | normal => exact absurd (.inl rfl) hnext

/-- The first round and what the loop does behind it, with enough fuel for both. -/
theorem completes_rounds {m m' : Machine} {signal : Signal} :
    Completes l.rounds m signal m' ↔ ∃ more m₁, Completes (holds · l.condition) m more m₁ ∧
      if more then
        ∃ ended m₂, Completes (execute · l.body) m₁ ended m₂ ∧
          Completes (l.goOn · ended) m₂ signal m'
      else signal = .normal ∧ m' = m₁ := by
  have hround : Settles fun fuel => execute fuel l.body >>= l.goOn fuel :=
    .bind (settles_execute l.body) l.settles_goOn
  rw [← l.settles_rounds.completes_succ]
  simp only [rounds_succ]
  rw [completes_bind (settles_holds l.condition) fun more => .ite hround (.const _)]
  refine exists₂_congr fun more m₁ => and_congr_right fun _ => ?_
  cases more with
  | false => exact completes_pure
  | true => exact completes_bind (settles_execute l.body) l.settles_goOn

theorem Rounds.completes {m m' : Machine} {signals : List Signal} {signal : Signal}
    (h : l.Rounds m signals signal m') : Completes l.rounds m signal m' := by
  rw [completes_rounds]
  induction h with
  | stopped hholds => exact ⟨false, _, hholds, rfl, rfl⟩
  | broken hholds hbody =>
    exact ⟨true, _, hholds, .exit .toEnd, _, hbody, completes_pure.2 ⟨rfl, rfl⟩⟩
  | @returned _ _ _ v hholds hbody =>
    exact ⟨true, _, hholds, .returned v, _, hbody, completes_pure.2 ⟨rfl, rfl⟩⟩
  | @next _ _ _ m₃ _ ended _ _ hnext hholds hbody hturn _ ih =>
    refine ⟨true, _, hholds, ended, _, hbody, ?_⟩
    simp only [goOn_of_next l _ hnext]
    exact (completes_bind (settles_step l.increment) fun _ => l.settles_rounds).2
      ⟨(), m₃, hturn, completes_rounds.2 ih⟩

theorem completes_iff_runs {s : Stmt} (hs : s.loop? = some l) {m m' : Machine} {signal : Signal} :
    Completes (execute · s) m signal m' ↔ ∃ signals, l.Runs m signals signal m' := by
  rw [completes_iff hs]
  constructor
  · rintro ⟨m₁, m₂, hbegin, ⟨fuel, hrounds⟩, he⟩
    obtain ⟨signals, hrounds⟩ := exists_rounds fuel m₁ hrounds
    exact ⟨signals, m₁, m₂, hbegin, hrounds, he⟩
  · rintro ⟨signals, m₁, m₂, hbegin, hrounds, he⟩
    exact ⟨m₁, m₂, hbegin, hrounds.completes, he⟩

theorem Rounds.ne_exit {m m' : Machine} {signals : List Signal} {signal : Signal}
    (h : l.Rounds m signals signal m') (e : LoopExit) : signal ≠ .exit e := by
  induction h with
  | stopped _ => exact Signal.noConfusion
  | broken _ _ => exact Signal.noConfusion
  | returned _ _ => exact Signal.noConfusion
  | next _ _ _ _ _ ih => exact ih

theorem completes_ne_exit {s : Stmt} (hs : s.loop? = some l) {m m' : Machine} {e : LoopExit} :
    ¬ Completes (execute · s) m (.exit e) m' := by
  intro h
  obtain ⟨signals, m₁, m₂, -, hrounds, -⟩ := (completes_iff_runs hs).1 h
  exact hrounds.ne_exit e rfl

end LoopParts

end Lox
