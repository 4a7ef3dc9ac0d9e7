import Lox.Proofs.Lines.Located

/-! The walk of the scopes looks at no report. At top level, where no scope is open, every statement
is walked by itself. -/
namespace Lox

namespace Scoping

variable (ds : List Diagnostic) (s : Scoping)

/-- The state with earlier reports. -/
def behind : Scoping := { s with reports := ds ++ s.reports }

@[simp] theorem behind_scopes : (s.behind ds).scopes = s.scopes := rfl

@[simp] theorem behind_isTaken (name : String) : (s.behind ds).isTaken name = s.isTaken name := rfl

@[simp] theorem behind_enter (scope : Scope) :
    (s.behind ds).enter scope = (s.enter scope).behind ds := rfl

@[simp] theorem behind_leave : (s.behind ds).leave = s.leave.behind ds := rfl

@[simp] theorem behind_report (d : Diagnostic) :
    (s.behind ds).report d = (s.report d).behind ds := by
  simp only [report, behind, List.append_assoc]

@[simp] theorem behind_redeclared (name : String) (line : Nat) :
    (s.behind ds).redeclared name line = (s.redeclared name line).behind ds :=
  s.behind_report ds _

@[simp] theorem behind_record (name : String) (ready : Bool) :
    (s.behind ds).record name ready = (s.record name ready).behind ds := by
  simp only [record, behind_scopes]
  cases s.scopes <;> rfl

theorem locate_behind (e : Expr) :
    (s.behind ds).locate e = ((s.locate e).1, (s.locate e).2.behind ds) := by
  simp only [locate, behind_scopes, behind_report]
  cases (e.locate s.scopes).2 <;> rfl

theorem locate?_behind (e? : Option Expr) :
    (s.behind ds).locate? e? = ((s.locate? e?).1, (s.locate? e?).2.behind ds) := by
  cases e? with
  | none => rfl
  | some e => simp only [locate?, locate_behind]

theorem locateVar_behind (decl : VarDecl) :
    (s.behind ds).locateVar decl = ((s.locateVar decl).1, (s.locateVar decl).2.behind ds) := by
  simp only [locateVar, behind_isTaken, behind_redeclared, behind_record, locate?_behind]
  cases s.isTaken decl.name <;> rfl

theorem locateInit_behind (init : ForInit) :
    (s.behind ds).locateInit init = ((s.locateInit init).1, (s.locateInit init).2.behind ds) := by
  cases init with
  | nothing => rfl
  | declare decl => simp only [locateInit, locateVar_behind]
  | evaluate e => simp only [locateInit, locate_behind]

theorem declareParams_behind (line : Nat) (params : List String) :
    (s.behind ds).declareParams line params = (s.declareParams line params).behind ds := by
  induction params generalizing s with
  | nil => rfl
  | cons name rest ih =>
    simp only [declareParams, behind_isTaken, behind_redeclared, behind_record, ih]
    split <;> rfl

end Scoping

open Scoping in
mutual
theorem Stmt.locate_behind (ds : List Diagnostic) : (stmt : Stmt) → (s : Scoping) →
    stmt.locate (s.behind ds) = ((stmt.locate s).1, (stmt.locate s).2.behind ds)
  | .expression e _, s => by simp only [Stmt.locate, Scoping.locate_behind]
  | .print e _, s => by simp only [Stmt.locate, Scoping.locate_behind]
  | .var decl, s => by simp only [Stmt.locate, locateVar_behind]
  | .function decl, s => by
    simp only [Stmt.locate, behind_isTaken, behind_redeclared, behind_record,
      locateFunction_behind]
    cases s.isTaken decl.name <;> rfl
  | .classDecl name methods _, s => by
    simp only [Stmt.locate, behind_isTaken, behind_redeclared, behind_record, behind_enter,
      locateMethods_behind]
    cases s.isTaken name <;> rfl
  | .block statements _, s => by
    simp only [Stmt.locate, behind_enter, locateStatements_behind, behind_leave]
  | .ifThen condition thenBranch _, s => by
    simp only [Stmt.locate, Scoping.locate_behind, thenBranch.locate_behind]
  | .ifElse condition thenBranch elseBranch _, s => by
    simp only [Stmt.locate, Scoping.locate_behind, thenBranch.locate_behind,
      elseBranch.locate_behind]
  | .whileLoop condition body _, s => by
    simp only [Stmt.locate, Scoping.locate_behind, body.locate_behind]
  | .forLoop init condition increment body _, s => by
    have henter : (if init.isDeclaration then (s.enter []).behind ds else s.behind ds) =
        (if init.isDeclaration then s.enter [] else s).behind ds := by split <;> rfl
    simp only [Stmt.locate, behind_enter, henter, locateInit_behind, locate?_behind,
      body.locate_behind, behind_leave]
    cases init.isDeclaration <;> rfl
  | .loopExit _ _, s => rfl
  | .returns value _, s => by simp only [Stmt.locate, locate?_behind]

theorem locateStatements_behind (ds : List Diagnostic) : (statements : List Stmt) →
    (s : Scoping) → locateStatements statements (s.behind ds) =
      ((locateStatements statements s).1, (locateStatements statements s).2.behind ds)
  | [], s => rfl
  | first :: rest, s => by
    simp only [locateStatements, first.locate_behind, locateStatements_behind ds rest]

theorem locateFunction_behind (ds : List Diagnostic) : (decl : FunDecl Stmt) → (s : Scoping) →
    locateFunction decl (s.behind ds) =
      ((locateFunction decl s).1, (locateFunction decl s).2.behind ds)
  | ⟨_, _, body, _, _⟩, s => by
    simp only [locateFunction, behind_enter, declareParams_behind,
      locateStatements_behind ds body, behind_leave]

theorem locateMethods_behind (ds : List Diagnostic) : (methods : List (FunDecl Stmt)) →
    (s : Scoping) → locateMethods methods (s.behind ds) =
      ((locateMethods methods s).1, (locateMethods methods s).2.behind ds)
  | [], s => rfl
  | method :: rest, s => by
    simp only [locateMethods, locateFunction_behind ds method, locateMethods_behind ds rest]
end

/-- A program is the sequence of its statements, each walked as a program of its own. -/
theorem locateProgram_eq (program : List Stmt) :
    locateProgram program =
      (program.map fun s => (s.locate .start).1,
        program.flatMap fun s => (s.locate .start).2.reports) := by
  induction program with
  | nil => rfl
  | cons first rest ih =>
    have hscopes : (first.locate .start).2.scopes = [] :=
      List.length_eq_zero_iff.1 (first.locate_length .start)
    have hbehind : (first.locate .start).2 =
        Scoping.start.behind (first.locate .start).2.reports := by
      simp only [Scoping.behind, Scoping.start, List.append_nil]
      exact congrArg (Scoping.mk · _) hscopes
    have hrest := locateStatements_behind (first.locate .start).2.reports rest .start
    simp only [locateProgram, Prod.mk.injEq] at ih
    simp only [locateProgram, locateStatements, List.map_cons, List.flatMap_cons]
    have hnone : Scoping.start.reports = [] := rfl
    rw [hbehind, hrest, ih.1]
    simp only [Scoping.behind, ih.2, hnone, List.append_nil]

/-- What is behind a program without faults is walked as if it stood alone. -/
theorem locateProgram_append {before behind before' behind' : List Stmt}
    (h : locateProgram before = (before', [])) (h' : locateProgram behind = (behind', [])) :
    locateProgram (before ++ behind) = (before' ++ behind', []) := by
  rw [locateProgram_eq, Prod.mk.injEq] at h h' ⊢
  rw [List.map_append, List.flatMap_append, h.1, h.2, h'.1, h'.2]
  exact ⟨rfl, rfl⟩

end Lox
