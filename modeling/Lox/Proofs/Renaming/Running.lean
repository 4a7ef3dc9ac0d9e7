import Lox.Proofs.Loops.Running
import Lox.Proofs.Renaming.Binding
import Lox.Proofs.Renaming.Located
import Lox.Proofs.Renaming.Simulation

/-! The name of a local variable does not matter, neither to the scopes nor to a run. -/
namespace Lox

open Lexical

theorem Lexical.Store.endsWith_renamed {x y : String} (hy : y ≠ "this")
    {program program' : List Stmt} (h : ProgramRenamed x y program program') {s : Store}
    {failure : Option Diagnostic} {world : World} :
    s.EndsWith program failure world ↔ s.EndsWith program' failure world := by
  unfold Store.EndsWith
  simp only [Store.interpret_worlds hy h]

/-- In a parsed program that the scopes accept, any local variable may be given a name that occurs
nowhere in the program, together with the occurrences that are bound to it. The scopes accept the
new program, and every occurrence keeps its depth. On a machine that any session has left behind,
both programs end with the same failure or none, and with the same world, or neither ends. -/
theorem Machine.interpret_renamed {source : String}
    (hparse : (Grammar.parse (Token.scan source)).diagnostics = []) {x y : String}
    {program' : List Stmt}
    (hrename : ProgramRenamesLocal x y (Grammar.parse (Token.scan source)).statements program')
    (hfresh : y ∉ statementsNames (Grammar.parse (Token.scan source)).statements)
    (hthis : y ≠ "this")
    (haccept : (locateProgram (Grammar.parse (Token.scan source)).statements).2 = []) :
    let program := (Grammar.parse (Token.scan source)).statements
    (locateProgram program').2 = [] ∧
      statementsDepths (locateProgram program').1 = statementsDepths (locateProgram program).1 ∧
        ∀ (limit : Option Nat) (sink : Sink) (clock : Nat → Float) (fuel : Nat)
          (sources : List String) (entries : List Entry) (m : Machine),
          (Machine.start limit sink clock).session fuel sources = some (entries, m) →
            ∀ (failure : Option Diagnostic) (world : World),
              m.EndsWith (locateProgram program).1 failure world ↔
                m.EndsWith (locateProgram program').1 failure world := by
  intro program
  obtain ⟨hg, used, hspell, hmem⟩ := parsed_spelled hparse
  have hw : statementsWritable program :=
    ⟨_, hspell, thisName_not_mem_symbols fun t ht => (Token.scan_sincere (hmem t ht)).2⟩
  have hscoped := (locateProgram_quiet_iff hg).1 haccept
  have hr : ProgramRenamed x y program program' := hrename.renamed hg hw hscoped hfresh
  obtain ⟨haccept', hdepths⟩ := hr.locate hthis hg hw hfresh haccept
  refine ⟨haccept', hdepths, ?_⟩
  intro limit sink clock fuel sources entries m hm failure world
  have hg' := hr.statements.grammatical hthis Naming.within_eq hg
  have hw' := hr.statements.writable hthis Naming.within_eq hw
  have hsession := Pair.session_ends fuel sources (Pair.start_rests limit sink clock)
  have hplaced := locateProgram_placed hg hw haccept
  have hplaced' := locateProgram_placed hg' hw' haccept'
  obtain ⟨p, hrests, rfl⟩ : ∃ p : Pair, p.Rests ∧ p.machine = m := hsession.rests hm
  calc p.machine.EndsWith (locateProgram program).1 failure world
    _ ↔ p.store.EndsWith (locateProgram program).1 failure world := hrests.endsWith_iff hplaced
    _ ↔ p.store.EndsWith program failure world := Store.endsWith_located
    _ ↔ p.store.EndsWith program' failure world := Store.endsWith_renamed hthis hr
    _ ↔ p.store.EndsWith (locateProgram program').1 failure world := Store.endsWith_located.symm
    _ ↔ p.machine.EndsWith (locateProgram program').1 failure world :=
      (hrests.endsWith_iff hplaced').symm

/-! A parameter with the name of a global variable and of a variable in a block of the function. -/
namespace Shadowing

def source : String :=
  "var a = \"g\"; fun f(a) \x7b \x7b var a = \"in\"; print a; \x7d return a; \x7d " ++
    "print f(\"p\"); print a;"

def text (s : String) : Expr := .literal (.string s) 1

def inner : Stmt := .block [.var ⟨"a", some (text "in"), 1⟩, .print (.read ⟨"a", .global⟩ 1) 1] 1

/-- The function whose parameter has the name. -/
def withParameter (name : String) : Stmt :=
  .function ⟨"f", [name], [inner, .returns (some (.read ⟨name, .global⟩ 1)) 1], 1, 0⟩

def program (name : String) : List Stmt :=
  [.var ⟨"a", some (text "g"), 1⟩, withParameter name,
    .print (.call (.read ⟨"f", .global⟩ 1) [text "p"] 1) 1, .print (.read ⟨"a", .global⟩ 1) 1]

theorem source_parses : Grammar.parse (Token.scan source) = ⟨program "a", []⟩ := by cbv

theorem program_renames : ProgramRenamesLocal "a" "b" (program "a") (program "b") :=
  .later (.first (.inFunction (@FunctionRenamesLocal.parameter "a" "b" "f" [] [] _ 1 0)))

end Shadowing

/-- The new name is that of the parameter alone. -/
theorem Machine.interpret_renamed_shadowing :
    let m := Machine.start none .unlimited fun _ => 0
    ProgramRenamesLocal "a" "b" (Grammar.parse (Token.scan Shadowing.source)).statements
        (Shadowing.program "b") ∧
      (locateProgram (Shadowing.program "b")).2 = [] ∧
        ∃ world, m.EndsWith (locateProgram (Shadowing.program "b")).1 none world ∧
          world.printedFrom 0 = "in\np\ng\n".toUTF8 := by
  intro m
  have hparse : (Grammar.parse (Token.scan Shadowing.source)).diagnostics = [] := by
    rw [Shadowing.source_parses]
  have hrename : ProgramRenamesLocal "a" "b"
      (Grammar.parse (Token.scan Shadowing.source)).statements (Shadowing.program "b") := by
    rw [Shadowing.source_parses]
    exact Shadowing.program_renames
  have hfresh : "b" ∉ statementsNames (Grammar.parse (Token.scan Shadowing.source)).statements := by
    rw [Shadowing.source_parses]
    decide
  have hquiet :
      (locateProgram (Grammar.parse (Token.scan Shadowing.source)).statements).2 = [] := by
    rw [Shadowing.source_parses]
    cbv
  obtain ⟨haccept, -, hruns⟩ :=
    Machine.interpret_renamed hparse hrename hfresh (by decide) hquiet
  simp only [Shadowing.source_parses] at hruns
  have hrun : (m.interpret 16 (locateProgram (Shadowing.program "a")).1).map
      (fun r => (r.1, r.2.toWorld.printedFrom 0)) = some (none, "in\np\ng\n".toUTF8) := by cbv
  obtain ⟨⟨failure, last⟩, h, he⟩ := Option.map_eq_some_iff.1 hrun
  obtain ⟨hnone, hprinted⟩ := Prod.mk.inj he
  have hends : m.EndsWith (locateProgram (Shadowing.program "a")).1 none last.toWorld := by
    refine ⟨16, ?_⟩
    rw [h]
    exact congrArg (fun f => some (f, last.toWorld)) hnone
  have hsession : Machine.session 0 [] m = some ([], m) := rfl
  have hends' := (hruns _ _ _ _ _ _ _ hsession none last.toWorld).1 hends
  exact ⟨hrename, haccept, last.toWorld, hends', hprinted⟩

end Lox
