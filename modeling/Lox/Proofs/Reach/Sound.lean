import Lox.Proofs.Reach.Calls
import Lox.Proofs.Steps.Restored
import Lox.Proofs.Steps.Retained

/-! Machines between two programs: whatever they refer to was made, and they stand at their globals,
a frame with none around it. -/
namespace Lox

/-- Everything that was ever made. -/
def Region.whole : Region := ⟨.empty, fun _ => False⟩

theorem Region.whole_allows {h : Heap} {p : Place} :
    Region.whole.Allows h p ↔ p.index < h.count p := by
  have hstart : Heap.empty.count p = 0 := by cases p <;> rfl
  simp [Region.Allows, Region.whole, hstart]

namespace Machine

open Region (whole)

structure Sound (m : Machine) : Prop where
  idle : m.Idle
  held : whole.Held m.heap
  globals : m.globals < m.heap.frames.size
  root : m.heap.frames.isRoot m.globals = true

theorem start_sound (limit : Option Nat) (sink : Sink) (clock : Nat → Float) :
    (start limit sink clock).Sound where
  idle := ⟨rfl, rfl⟩
  held := {
    grown := fun p => by
      have hstart : whole.start.count p = 0 := by cases p <;> rfl
      exact hstart ▸ Nat.zero_le _
    closed := fun {p} hp => by
      have hlt := Region.whole_allows.1 hp
      cases p with
      | frame f =>
        obtain rfl : f = 0 := Nat.lt_one_iff.1 hlt
        exact Region.allowsAll_nil
      | function | classObject | object => exact absurd hlt (Nat.not_lt_zero _)
    nested := fun f frame _ hpos hf => by
      have hlt : f < 1 := Frames.get?_eq_some_lt hf
      exact absurd hlt (Nat.not_lt_of_le hpos)
    frames := fun hf => absurd hf (Nat.not_lt_zero _)
    objects := fun hid => absurd hid (Nat.not_lt_zero _) }
  globals := Nat.zero_lt_one
  root := rfl

namespace Sound

variable {m m' : Machine} {fuel : Nat} {program : List Stmt}

theorem current_allowed (h : m.Sound) : whole.Allows m.heap (.frame m.current) :=
  Region.whole_allows.2 (h.idle.current ▸ h.globals)

theorem interpret {d? : Option Diagnostic} (h : m.Sound)
    (hrun : m.interpret fuel program = some (d?, m')) : m'.Sound := by
  obtain ⟨hidle, hglobals, -⟩ := h.idle.interpret hrun
  have hlinks := (interpret_retains hrun).heap.frames.links
  have hconfined := Action.Confined.executeProgram whole fuel program h.current_allowed m rfl
    (.refl _) h.held
  have hheld : whole.Held m'.heap := by
    obtain ⟨he, -⟩ | ⟨d, last, he, -, rfl⟩ := interpret_eq_some.1 hrun
    · rw [he] at hconfined
      exact hconfined.2.1.held
    · rw [he] at hconfined
      exact hconfined.2.held
  exact ⟨hidle, hheld, hglobals ▸ hlinks.lt h.globals,
    hglobals ▸ (hlinks.isRoot h.globals).trans h.root⟩

theorem runs {u : Unit} (h : m.Sound)
    (hrun : executeProgram fuel program m = .done u m') : m'.Sound := by
  have hdone : m.interpret fuel program = some (none, m') := by rw [Machine.interpret, hrun]
  exact h.interpret hdone

end Sound

theorem Interprets.sound {ds : List (Option Diagnostic)} {m last : Machine}
    (h : m.Interprets ds last) (hm : m.Sound) : last.Sound := by
  induction h with
  | nothing m => exact hm
  | program hrun _ ih => exact ih (hm.interpret hrun)

end Machine
end Lox
