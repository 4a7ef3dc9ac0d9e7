import Mathlib
import Lox.Session
import Lox.Proofs.Steps.Instrument

/-! Evaluation leaves the machine where it stood: in the same frame and with the same count of
calls, whatever the tree is like and however its evaluation ends. -/
namespace Lox

variable {α : Type}

/-- Where a machine stands in its run, as opposed to what it has in its heap and has printed. -/
structure Machine.StandsAs (m m' : Machine) : Prop where
  globals : m'.globals = m.globals
  current : m'.current = m.current
  calls : m'.calls = m.calls
  hadError : m'.hadError = m.hadError

namespace Machine.StandsAs

variable {m m' m'' : Machine}

theorem trans (h : m.StandsAs m') (h' : m'.StandsAs m'') : m.StandsAs m'' where
  globals := h'.globals.trans h.globals
  current := h'.current.trans h.current
  calls := h'.calls.trans h.calls
  hadError := h'.hadError.trans h.hadError

/-- The call that is over counts no more. -/
theorem leaveCall (h : StandsAs { m with toWorld := m.enterCall } m') :
    m.StandsAs { m' with toWorld := m'.leaveCall } where
  globals := h.globals
  current := h.current
  calls := by
    have hcalls : m'.calls = m.calls + 1 := h.calls
    simp only [World.leaveCall, hcalls, Nat.add_sub_cancel]
  hadError := h.hadError

end Machine.StandsAs

theorem Machine.StandsAs.passage : Machine.Passage Machine.StandsAs where
  trans := .trans
  onHeap _ _ := ⟨rfl, rfl, rfl, rfl⟩
  print _ _ := ⟨rfl, rfl, rfl, rfl⟩
  tick _ := ⟨rfl, rfl, rfl, rfl⟩
  inFrame _ h := ⟨h.globals, rfl, h.calls, h.hadError⟩
  asCall := .leaveCall

/-- Wherever the action ends, the machine stands as before. -/
def Action.Restores (x : Action Machine α) : Prop := ∀ m, ∀ m' ∈ (x m).state?, m.StandsAs m'

theorem Action.Restores.inherited : Action.Inherited fun _ x => x.Restores :=
  Machine.StandsAs.passage.inherited

namespace Machine

/-- Programs run one after the other, failing ones included, and what each comes to. -/
inductive Interprets : Machine → List (Option Diagnostic) → Machine → Prop
  | nothing (m : Machine) : Interprets m [] m
  | program {m m' last : Machine} {fuel : Nat} {program : List Stmt} {d? : Option Diagnostic}
    {ds : List (Option Diagnostic)} : m.interpret fuel program = some (d?, m') →
      m'.Interprets ds last → Interprets m (d? :: ds) last

/-- A machine between two programs. -/
structure Idle (m : Machine) : Prop where
  current : m.current = m.globals
  calls : m.calls = 0

/-- A program leaves an idle machine idle, and notes a failure. -/
theorem Idle.interpret {m m' : Machine} {fuel : Nat} {program : List Stmt} {d? : Option Diagnostic}
    (hm : m.Idle) (h : m.interpret fuel program = some (d?, m')) :
    m'.Idle ∧ m'.globals = m.globals ∧ m'.hadError = (m.hadError || d?.isSome) := by
  have hrun := Action.Restores.inherited.executeProgram fuel program m
  obtain ⟨hr, rfl⟩ | ⟨d, last, hr, rfl, rfl⟩ := interpret_eq_some.1 h
  · have hstand : m.StandsAs m' := hrun m' (by rw [hr]; rfl)
    refine ⟨⟨?_, ?_⟩, hstand.globals, ?_⟩
    · rw [hstand.current, hstand.globals, hm.current]
    · rw [hstand.calls, hm.calls]
    · simp [hstand.hadError]
  · have hstand : m.StandsAs last := hrun last (by rw [hr]; rfl)
    exact ⟨⟨rfl, rfl⟩, hstand.globals, by simp [World.fail]⟩

theorem Interprets.idle {m last : Machine} {ds : List (Option Diagnostic)}
    (h : m.Interprets ds last) (hm : m.Idle) :
    last.Idle ∧ last.globals = m.globals ∧
      last.hadError = (m.hadError || ds.any Option.isSome) := by
  induction h with
  | nothing m => exact ⟨hm, rfl, by simp⟩
  | program hrun _ ih =>
    obtain ⟨hidle, hglobals, herror⟩ := hm.interpret hrun
    obtain ⟨hidle', hglobals', herror'⟩ := ih hidle
    refine ⟨hidle', hglobals'.trans hglobals, ?_⟩
    rw [herror', herror, List.any_cons, Bool.or_assoc]

/-- A session interprets the programs of its sources that compile. -/
theorem session_interprets {m m' : Machine} {fuel : Nat} {sources : List String}
    {entries : List Entry} (h : m.session fuel sources = some (entries, m')) :
    ∃ ds, m.Interprets ds m' := by
  induction sources generalizing m entries with
  | nil =>
    cases h
    exact ⟨[], .nothing _⟩
  | cons source rest ih =>
    obtain ⟨f?, mid, others, hrun, hothers, -⟩ := session_cons_eq_some.1 h
    obtain ⟨ds, hrest⟩ := ih hothers
    obtain ⟨f, -, -, rfl⟩ | ⟨program, d?, -, hinterpret, -⟩ := run_eq_some.1 hrun
    · exact ⟨ds, hrest⟩
    · exact ⟨d? :: ds, .program hinterpret hrest⟩

end Machine

/-- An evaluation that ends, in any way, ends in the frame that it started in and with the count of
calls that it started with. Between the programs that run on a fresh machine its globals are the
current frame, no call is active, and it has had an error if and only if a program failed. -/
theorem evaluation_restores :
    (∀ fuel e (m : Machine), ∀ m' ∈ (evaluate fuel e m).state?,
      m'.current = m.current ∧ m'.calls = m.calls) ∧
    (∀ fuel s (m : Machine), ∀ m' ∈ (execute fuel s m).state?,
      m'.current = m.current ∧ m'.calls = m.calls) ∧
    ∀ limit sink clock ds last, (Machine.start limit sink clock).Interprets ds last →
      last.current = (Machine.start limit sink clock).globals ∧ last.globals = last.current ∧
        last.calls = 0 ∧ (last.hadError = true ↔ ∃ d, some d ∈ ds) := by
  refine ⟨fun fuel e m m' hm' => ?_, fun fuel s m m' hm' => ?_,
    fun limit sink clock ds last h => ?_⟩
  · have hstand := Action.Restores.inherited.evaluate fuel e m m' hm'
    exact ⟨hstand.current, hstand.calls⟩
  · have hstand := Action.Restores.inherited.execute fuel s m m' hm'
    exact ⟨hstand.current, hstand.calls⟩
  · obtain ⟨hidle, hglobals, herror⟩ := h.idle ⟨rfl, rfl⟩
    refine ⟨hidle.current.trans hglobals, hidle.current.symm, hidle.calls, ?_⟩
    rw [herror]
    have hfresh : (Machine.start limit sink clock).hadError = false := rfl
    rw [hfresh, Bool.false_or, List.any_eq_true]
    constructor
    · rintro ⟨d?, hmem, hsome⟩
      obtain ⟨d, rfl⟩ := Option.isSome_iff_exists.1 hsome
      exact ⟨d, hmem⟩
    · rintro ⟨d, hmem⟩
      exact ⟨some d, hmem, rfl⟩

def negatedNil : Expr := .unary .negate (.literal .nil 2) 2

/-- Fails two frames deeper than it starts. -/
def failingBlock : Stmt := .block [.block [.expression negatedNil 2] 2] 1

def failingCall : List Stmt :=
  [.function ⟨"f", [], [failingBlock], 1, 0⟩,
    .expression (.call (.read ⟨"f", .global⟩ 3) [] 3) 3]

theorem evaluation_restores_failing :
    let m := Machine.start (some callLimit) .unlimited fun _ => 0
    (∃ last ∈ (execute 16 failingBlock m).state?,
      last.current = m.current ∧ last.calls = m.calls) ∧
    (∃ last ∈ (evaluate 16 negatedNil m).state?,
      last.current = m.current ∧ last.calls = m.calls) ∧
    ∃ last, m.Interprets [some ⟨2, .runtime .operandNotNumber⟩, none] last ∧
      last.current = m.globals ∧ last.calls = 0 ∧ last.hadError = true := by
  intro m
  obtain ⟨hevaluate, hexecute, hinterprets⟩ := evaluation_restores
  have hblock : (execute 16 failingBlock m).state?.isSome := by cbv
  have hunary : (evaluate 16 negatedNil m).state?.isSome := by cbv
  have hruns : ((m.interpret 16 failingCall).bind fun r =>
      (r.2.interpret 16 [.print (.literal .nil 1) 1]).map fun r' => (r.1, r'.1)) =
        some (some ⟨2, .runtime .operandNotNumber⟩, none) := by cbv
  refine ⟨?_, ?_, ?_⟩
  · obtain ⟨last, hlast⟩ := Option.isSome_iff_exists.1 hblock
    exact ⟨last, hlast, hexecute 16 _ m last hlast⟩
  · obtain ⟨last, hlast⟩ := Option.isSome_iff_exists.1 hunary
    exact ⟨last, hlast, hevaluate 16 _ m last hlast⟩
  · obtain ⟨⟨d?, m'⟩, hfirst, hrest⟩ := Option.bind_eq_some_iff.1 hruns
    obtain ⟨⟨d?', last⟩, hsecond, he⟩ := Option.map_eq_some_iff.1 hrest
    cases he
    have h := Machine.Interprets.program hfirst (.program hsecond (.nothing last))
    obtain ⟨hcurrent, -, hcalls, herror⟩ := hinterprets _ _ _ _ last h
    exact ⟨last, h, hcurrent, hcalls, herror.2 ⟨_, List.mem_cons_self⟩⟩

end Lox
