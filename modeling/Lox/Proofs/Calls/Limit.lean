import Lox.Proofs.Calls.Watch
import Lox.Proofs.Steps.Step

/-! The call limit: a machine that has one does what a machine without one does, up to the first
call that would be one too many. -/
namespace Lox

def World.counting (w : World) (limit : Option Nat) (active : Nat) : World :=
  { w with limit, calls := active }

/-- The machine with a call limit, or without one, and so many calls on its count. -/
def Machine.counting (m : Machine) (limit : Option Nat) (active : Nat) : Machine :=
  { m with toWorld := m.toWorld.counting limit active }

variable {α β : Type}

/-- The answer with another limit and another count in its machine. -/
def Answer.counting (limit : Option Nat) (active : Nat) : Answer Machine α → Answer Machine α
  | .done a m => .done a (m.counting limit active)
  | .failed d m => .failed d (m.counting limit active)
  | .outOfFuel => .outOfFuel

/-! Actions that neither read nor change the count. -/

def Action.IgnoresCount (x : Action Machine α) : Prop :=
  ∀ m limit active, x (m.counting limit active) = (x m).counting limit active

namespace Action.IgnoresCount

/-- A step on the heap sees no count. -/
theorem onHeap {x : Action Machine α} (h : x.OnHeap) : x.IgnoresCount := by
  intro m limit active
  obtain ⟨r, h', hr⟩ := h m.heap m.current
  rw [hr m rfl rfl, hr (m.counting limit active) rfl rfl]
  cases r <;> rfl

theorem fuelSpent : (Action.fuelSpent : Action Machine α).IgnoresCount := fun _ _ _ => rfl

theorem inspect {f : Machine → α} (h : ∀ m limit active, f (m.counting limit active) = f m) :
    (Action.inspect f).IgnoresCount := by
  intro m limit active
  simp only [Action.inspect, h, Answer.counting]

theorem print (text : String) : (Machine.print text).IgnoresCount := by
  intro m limit active
  have hw : (m.counting limit active).toWorld.print text =
      ((m.toWorld.print text).1, (m.toWorld.print text).2.counting limit active) := rfl
  simp only [Machine.print, hw]
  split <;> rfl

theorem tick : Machine.tick.IgnoresCount := fun _ _ _ => rfl

end Action.IgnoresCount

/-! The watched run and the run with a limit. -/

def CallNote.exceeds (limit : Option Nat) (note : CallNote) : Bool := limit.any (· < note.active)

/-- What a run with a limit comes to, if without one it makes the calls `notes` and has the answer
`r`: the same answer, unless a call is one too many. At the first such call it stops, with nothing
printed but what is printed by then. -/
inductive Answer.CutOff (limit : Option Nat) (active : Nat) :
    List CallNote × Answer Machine α → Answer Machine α → Prop where
  | whole {notes : List CallNote} {r : Answer Machine α} :
    notes.find? (·.exceeds limit) = none → CutOff limit active (notes, r) (r.counting limit active)
  | stopped {notes : List CallNote} {r : Answer Machine α} {note : CallNote} {last : Machine} :
    notes.find? (·.exceeds limit) = some note → limit.map (· + 1) = some note.active →
      last.toWorld = note.world.counting limit active →
        CutOff limit active (notes, r) (.failed ⟨note.line, .runtime .callsTooDeep⟩ last)

/-- With a limit, the action is what the watched one is without. -/
def Watch.Limits (limit : Option Nat) (w : Watch α) (x : Action Machine α) : Prop :=
  ∀ active m, (∀ n ∈ limit, active ≤ n) →
    Answer.CutOff limit active (w active m) (x (m.counting limit active))

namespace Watch.Limits

open Answer (CutOff)

variable {limit : Option Nat}

theorem quiet {x : Action Machine α} (h : x.IgnoresCount) : (Watch.quiet x).Limits limit x := by
  intro active m _
  rw [h]
  exact .whole rfl

theorem onHeap {x : Action Machine α} (h : x.OnHeap) : (Watch.quiet x).Limits limit x :=
  quiet (.onHeap h)

theorem pure (a : α) : (Pure.pure a : Watch α).Limits limit (Pure.pure a) := onHeap (.pure a)

theorem fuelSpent : (Watch.fuelSpent : Watch α).Limits limit Action.fuelSpent := quiet .fuelSpent

theorem failRuntime (line : Nat) (f : RuntimeFault) :
    (Watch.failRuntime line f : Watch α).Limits limit (Action.failRuntime line f) :=
  onHeap (.fail line _)

theorem inspect {f : Machine → α} (h : ∀ m limit active, f (m.counting limit active) = f m) :
    (Watch.inspect f).Limits limit (Action.inspect f) := quiet (.inspect h)

theorem allocate (f : Heap → α × Heap) :
    (Watch.allocate f).Limits limit (Machine.allocate f) := onHeap (.allocate f)

theorem bind {w : Watch α} {x : Action Machine α} {f : α → Watch β} {g : α → Action Machine β}
    (h : w.Limits limit x) (hf : ∀ a, (f a).Limits limit (g a)) :
    (w >>= f).Limits limit (x >>= g) := by
  intro active m hin
  have h := h active m hin
  rw [Watch.bind_apply, Action.bind_apply]
  generalize w active m = seen at h ⊢
  generalize x (m.counting limit active) = r at h ⊢
  cases h with
  | @whole notes r hnone =>
    cases r with
    | failed d m' => exact .whole hnone
    | outOfFuel => exact .whole hnone
    | done a m' =>
      have hf := hf a active m' hin
      simp only [Answer.counting]
      generalize f a active m' = seen' at hf ⊢
      generalize g a (m'.counting limit active) = r' at hf ⊢
      cases hf with
      | whole hnone' => exact .whole (by rw [List.find?_append, hnone, hnone']; rfl)
      | stopped hsome hlimit hworld =>
        exact .stopped (by rw [List.find?_append, hnone, hsome]; rfl) hlimit hworld
  | @stopped notes r note last hsome hlimit hworld =>
    cases r with
    | failed d m' => exact .stopped hsome hlimit hworld
    | outOfFuel => exact .stopped hsome hlimit hworld
    | done a m' =>
      exact .stopped (by rw [List.find?_append, hsome]; rfl) hlimit hworld

theorem ite {p : Prop} [Decidable p] {w w' : Watch α} {x x' : Action Machine α}
    (h : w.Limits limit x) (h' : w'.Limits limit x') :
    (if p then w else w').Limits limit (if p then x else x') := by
  split
  · exact h
  · exact h'

theorem inFrame (frame : FrameId) {w : Watch α} {x : Action Machine α} (h : w.Limits limit x) :
    (Watch.inFrame frame w).Limits limit (Machine.inFrame frame x) := by
  intro active m hin
  have h := h active { m with current := frame } hin
  have hm : ({ m.counting limit active with current := frame } : Machine) =
      { m with current := frame }.counting limit active := rfl
  simp only [Watch.inFrame, Machine.inFrame, hm]
  generalize w active { m with current := frame } = seen at h ⊢
  generalize x (Machine.counting { m with current := frame } limit active) = r at h ⊢
  cases h with
  | @whole notes r hnone => cases r <;> exact .whole hnone
  | @stopped notes r note last hsome hlimit hworld =>
    cases r <;> exact .stopped hsome hlimit hworld

theorem inNewFrame {w : Watch α} {x : Action Machine α} (h : w.Limits limit x) :
    (Watch.inNewFrame w).Limits limit (Machine.inNewFrame x) :=
  .bind (.inspect fun _ _ _ => rfl) fun _ => .bind (.allocate _) fun frame => h.inFrame frame

/-- The limit matters here and nowhere else. -/
theorem asCall (line : Nat) {w : Watch α} {x : Action Machine α} (h : w.Limits limit x) :
    (Watch.asCall line w).Limits limit (Machine.asCall line x) := by
  intro active m hin
  have hat : (m.counting limit active).atLimit =
      CallNote.exceeds limit ⟨line, active + 1, m.toWorld⟩ := by
    cases limit with
    | none => rfl
    | some n => exact decide_eq_decide.2 Nat.lt_succ_iff.symm
  simp only [Watch.asCall, Machine.asCall, hat]
  cases hx : CallNote.exceeds limit ⟨line, active + 1, m.toWorld⟩ with
  | true =>
    have hlimit : limit.map (· + 1) = some (active + 1) := by
      cases limit with
      | none => cases hx
      | some n =>
        have hle : active ≤ n := hin n rfl
        have hlt : n ≤ active := by simpa [CallNote.exceeds, Nat.lt_succ_iff] using hx
        rw [Nat.le_antisymm hle hlt]
        rfl
    have hfirst (notes : List CallNote) :
        (⟨line, active + 1, m.toWorld⟩ :: notes).find? (·.exceeds limit) =
          some ⟨line, active + 1, m.toWorld⟩ := by
      rw [List.find?_cons, hx]
    exact .stopped (hfirst _) hlimit rfl
  | false =>
    have hin' : ∀ n ∈ limit, active + 1 ≤ n := by
      rintro n rfl
      simpa [CallNote.exceeds] using hx
    have h := h (active + 1) m hin'
    have henter : ({ m.counting limit active with
        toWorld := (m.counting limit active).enterCall } : Machine) =
          m.counting limit (active + 1) := rfl
    simp only [henter, Bool.false_eq_true, if_false]
    generalize w (active + 1) m = seen at h ⊢
    generalize x (m.counting limit (active + 1)) = r at h ⊢
    cases h with
    | @whole notes r hnone =>
      cases r <;> exact .whole (by rw [List.find?_cons, hx]; exact hnone)
    | @stopped notes r note last hsome hlimit hworld =>
      refine .stopped (by rw [List.find?_cons, hx]; exact hsome) hlimit ?_
      simp only [World.leaveCall, hworld]
      rfl

end Watch.Limits
end Lox
