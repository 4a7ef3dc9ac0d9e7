import Lox.Token.Scan
import Lox.Grammar.Statement
import Lox.Scope.Locate
import Lox.Evaluation

/-! Programs: from source text to a tree that can run, and runs of it on a machine. -/
namespace Lox

/-- The part of the work that failed. -/
inductive Stage where
  | scan | parse | resolve | runtime
  deriving DecidableEq, Repr

def Stage.name : Stage → String
  | scan => "scan"
  | parse => "parse"
  | resolve => "resolve"
  | runtime => "runtime"

/-- The exit code of a failure: 65 before the program runs, 70 when it does. -/
def Stage.exitCode : Stage → Nat
  | scan | parse | resolve => 65
  | runtime => 70

structure Failure where
  stage : Stage
  diagnostics : List Diagnostic
  deriving Repr

def Failure.text (f : Failure) : String := Diagnostic.report f.diagnostics

/-- Reads a source and binds its names. The first stage with a fault ends the work; all its faults
are reported. -/
def compile (source : String) : Except Failure (List Stmt) :=
  let lexical := Diagnostic.scan source
  if !lexical.isEmpty then .error ⟨.scan, lexical⟩
  else
    let parsed := Grammar.parse (Token.scan source)
    if !parsed.diagnostics.isEmpty then .error ⟨.parse, parsed.diagnostics⟩
    else
      let located := locateProgram parsed.statements
      if !located.2.isEmpty then .error ⟨.resolve, located.2⟩ else .ok located.1

namespace Machine

open Lox.Action

/-- Executes top-level statements in order. No signal may leave one of them. -/
def executeProgram (fuel : Nat) : List Stmt → Action Machine Unit
  | [] => pure ()
  | s :: rest => do
    match ← execute fuel s with
    | .normal => executeProgram fuel rest
    | signal =>
      let text ← inspect fun m => signal.description m.heap
      fail s.line (.internal (.escapedTopLevel text))

/-- Runs a program up to its end or its first failure, after which the machine stands at top
level again. There is no answer when the fuel does not suffice. -/
def interpret (fuel : Nat) (program : List Stmt) (m : Machine) :
    Option (Option Diagnostic × Machine) :=
  match executeProgram fuel program m with
  | .done () m => some (none, m)
  | .failed d m => some (some d, { m with toWorld := m.fail, current := m.globals })
  | .outOfFuel => none

theorem interpret_eq_some {fuel : Nat} {program : List Stmt} {d? : Option Diagnostic}
    {m m' : Machine} :
    m.interpret fuel program = some (d?, m') ↔
      (executeProgram fuel program m = .done () m' ∧ d? = none) ∨
      ∃ d last, executeProgram fuel program m = .failed d last ∧ d? = some d ∧
        m' = { last with toWorld := last.fail, current := last.globals } := by
  unfold interpret
  cases executeProgram fuel program m with
  | done _ last => simp [eq_comm, and_comm]
  | failed d last => simp [eq_comm, and_assoc]
  | outOfFuel => simp

/-- Compiles a source and runs it; a source that does not compile leaves the machine alone. -/
def run (fuel : Nat) (source : String) (m : Machine) : Option (Option Failure × Machine) :=
  match compile source with
  | .error f => some (some f, m)
  | .ok program =>
    (interpret fuel program m).map fun r => (r.1.map fun d => ⟨.runtime, [d]⟩, r.2)

/-- A run that ends was stopped by the compiler, or is one of the program that it gave. -/
theorem run_eq_some {fuel : Nat} {source : String} {f? : Option Failure} {m m' : Machine} :
    m.run fuel source = some (f?, m') ↔
      (∃ f, compile source = .error f ∧ f? = some f ∧ m' = m) ∨
      ∃ program d?, compile source = .ok program ∧ m.interpret fuel program = some (d?, m') ∧
        f? = d?.map fun d => ⟨.runtime, [d]⟩ := by
  unfold run
  cases compile source with
  | error f => simp [eq_comm]
  | ok program =>
    rw [Option.map_eq_some_iff]
    constructor
    · rintro ⟨⟨d?, last⟩, hlast, he⟩
      cases he
      exact .inr ⟨program, d?, rfl, hlast, rfl⟩
    · rintro (⟨f, hc, -⟩ | ⟨_, d?, hc, hlast, rfl⟩)
      · cases hc
      · cases hc
        exact ⟨(d?, m'), hlast, rfl⟩

end Machine
end Lox
