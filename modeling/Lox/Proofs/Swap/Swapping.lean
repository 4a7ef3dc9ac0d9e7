import Lox.Proofs.Lines.Joined
import Lox.Proofs.Swap.Declaring

/-! Neighbouring declarations of functions and classes at top level may change places. -/
namespace Lox

open Region (whole whole_allows)

theorem Stmt.locate_declares? (s : Stmt) (t : Scoping) :
    (s.locate t).1.declares? = s.declares? := by
  cases s with
  | function decl =>
    rcases decl with ⟨name, params, body, line, site⟩
    rw [Stmt.locate]
    split <;> rfl
  | classDecl name methods line =>
    rw [Stmt.locate]
    split <;> rfl
  | _ => rfl

/-- What a run came to, without the heap. -/
def Answer.outcome : Answer Machine Unit → Option (Option Diagnostic × World)
  | .done _ m => some (none, m.toWorld)
  | .failed d m => some (some d, m.toWorld.fail)
  | .outOfFuel => none

theorem Answer.Renumbered.outcome {r : Renumbering} {f : Unit → Unit}
    {answer answer' : Answer Machine Unit} (h : answer.Renumbered r f answer') :
    answer'.outcome = answer.outcome := by
  cases h with
  | done _ hr => simp only [Answer.outcome, hr.world]
  | failed hr => simp only [Answer.outcome, hr.world]
  | outOfFuel => rfl

namespace Machine

variable {m m' : Machine} {a b : Stmt} {x y : String} {fuel : Nat}

theorem interpret_outcome (fuel : Nat) (program : List Stmt) (m : Machine) :
    (m.interpret fuel program).map (fun r => (r.1, r.2.toWorld)) =
      (executeProgram fuel program m).outcome := by
  unfold interpret
  cases executeProgram fuel program m <;> rfl

/-- At top level a declaration succeeds. -/
theorem Sound.declares (h : m.Sound) (fuel : Nat) (hx : a.declares? = some x) :
    ∃ m', execute (fuel + 1) a m = .done .normal m' ∧ m.Declares a x m' ∧ m'.Sound := by
  have hlt : m.current < m.heap.frames.size := h.idle.current ▸ h.globals
  have haccepts : m.heap.frames.accepts m.current x = true := by
    rw [Frames.accepts, h.idle.current, h.root, Bool.true_or]
  obtain ⟨m', hrun, hdeclares⟩ := execute_declares fuel hx hlt haccepts
  have hdone : executeProgram (fuel + 1) [a] m = .done () m' := by
    rw [executeProgram, Action.bind_apply, hrun]
    rfl
  exact ⟨m', hrun, hdeclares, h.runs hdone⟩

theorem executeProgram_cons (h : execute fuel a m = .done .normal m') (rest : List Stmt) :
    executeProgram fuel (a :: rest) m = executeProgram fuel rest m' := by
  rw [executeProgram, Action.bind_apply, h]

theorem Sound.swapped (h : m.Sound) (hx : a.declares? = some x) (hy : b.declares? = some y)
    (hne : x ≠ y) (fuel : Nat) (after : List Stmt) :
    (executeProgram fuel (a :: b :: after) m).outcome =
      (executeProgram fuel (b :: a :: after) m).outcome := by
  cases fuel with
  | zero => rfl
  | succ fuel =>
    obtain ⟨ma, hruna, ha, hsounda⟩ := h.declares fuel hx
    obtain ⟨mab, hrunab, hab, hsoundab⟩ := hsounda.declares fuel hy
    obtain ⟨mb, hrunb, hb, hsoundb⟩ := h.declares fuel hy
    obtain ⟨mba, hrunba, hba, -⟩ := hsoundb.declares fuel hx
    have hrenumbered := Declares.exchanged hx hy ha hab hb hba h hne
    have halike := (executeProgram_renumbered (fuel + 1) after hsoundab.current_allowed mab mba rfl
      (.refl _) hsoundab.held hrenumbered).2
    rw [executeProgram_cons hruna, executeProgram_cons hrunab, executeProgram_cons hrunb,
      executeProgram_cons hrunba, halike.outcome]

end Machine

/-- Of two neighbouring top-level statements that declare functions or classes of different names
either may stand first: the program is accepted as it was, and on a machine that has run whatever
programs it prints the same and ends the same. -/
theorem Machine.interpret_swapped {before after : List Stmt} {a b : Stmt} {x y : String}
    (hx : a.declares? = some x) (hy : b.declares? = some y) (hne : x ≠ y) :
    let program := before ++ a :: b :: after
    let swapped := before ++ b :: a :: after
    ((locateProgram program).2 = [] ↔ (locateProgram swapped).2 = []) ∧
      ∀ limit sink clock ds m, (Machine.start limit sink clock).Interprets ds m → ∀ fuel,
        (m.interpret fuel (locateProgram program).1).map (fun r => (r.1, r.2.toWorld)) =
          (m.interpret fuel (locateProgram swapped).1).map fun r => (r.1, r.2.toWorld) := by
  intro program swapped
  simp only [program, swapped, locateProgram_eq, List.map_append, List.map_cons,
    List.flatMap_append, List.flatMap_cons, List.append_eq_nil_iff]
  refine ⟨by rw [and_left_comm (a := (a.locate .start).2.reports = [])], ?_⟩
  intro limit sink clock ds m hm fuel
  have hsound : m.Sound := hm.sound (start_sound limit sink clock)
  rw [interpret_outcome, interpret_outcome, executeProgram_append, executeProgram_append,
    Action.bind_apply, Action.bind_apply]
  cases hrun : executeProgram fuel (before.map fun s => (s.locate .start).1) m with
  | done u last =>
    rw [← a.locate_declares? .start] at hx
    rw [← b.locate_declares? .start] at hy
    exact (hsound.runs hrun).swapped hx hy hne fuel _
  | failed d last => rfl
  | outOfFuel => rfl

/-! A function and a class that refer to each other. -/
namespace Crossing

def caller : Stmt :=
  .function ⟨"f", [], [.returns (some (.call (.read ⟨"G", .global⟩ 1) [] 1)) 1], 1, 0⟩

def shower : Stmt := .classDecl "G" [⟨"init", [], [.print (.read ⟨"f", .global⟩ 2) 2], 2, 1⟩] 2

def use : Stmt := .expression (.unary .negate (.call (.read ⟨"f", .global⟩ 3) [] 3) 3) 3

end Crossing

open Crossing in
theorem Machine.interpret_swapped_crossing :
    let m := Machine.start none .unlimited fun _ => 0
    caller.declares? = some "f" ∧ shower.declares? = some "G" ∧ "f" ≠ "G" ∧
      (locateProgram [shower, caller, use]).2 = [] ∧
        ∃ world, (m.interpret 16 (locateProgram [shower, caller, use]).1).map
            (fun r => (r.1, r.2.toWorld)) = some (some ⟨3, .runtime .operandNotNumber⟩, world) ∧
          world.printedFrom 0 = "<fn f>\n".toUTF8 := by
  intro m
  have hne : "f" ≠ "G" := by decide
  obtain ⟨haccept, hruns⟩ :=
    @Machine.interpret_swapped [] [use] caller shower "f" "G" rfl rfl hne
  have hquiet : (locateProgram [caller, shower, use]).2 = [] := by cbv
  have hrun : (m.interpret 16 (locateProgram [caller, shower, use]).1).map
      (fun r => (r.1, r.2.toWorld.printedFrom 0)) =
        some (some ⟨3, .runtime .operandNotNumber⟩, "<fn f>\n".toUTF8) := by cbv
  obtain ⟨⟨d?, last⟩, h, he⟩ := Option.map_eq_some_iff.1 hrun
  obtain ⟨rfl, hprinted⟩ := Prod.mk.inj he
  refine ⟨rfl, rfl, hne, haccept.1 hquiet, last.toWorld, ?_, hprinted⟩
  have hsame := hruns none .unlimited (fun _ => 0) [] m (.nothing m) 16
  rw [List.nil_append, List.nil_append, h] at hsame
  exact hsame.symm

end Lox
