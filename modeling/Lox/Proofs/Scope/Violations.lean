import Mathlib.Data.List.Perm.Subperm
import Lox.Proofs.Scope.Declared

/-! Everything that a program does wrong with its scopes, told from the program alone, and what of
it the walk reports: all but what an earlier violation hides. -/
namespace Lox

/-- Something wrong, as it should be reported, and whether an earlier violation hides it. -/
structure Violation where
  report : Diagnostic
  hidden : Bool
  deriving DecidableEq

namespace Violation

def hide (v : Violation) : Violation := { v with hidden := true }

/-- The reports on what is not hidden. -/
def reported (vs : List Violation) : List Diagnostic := (vs.filter (!·.hidden)).map report

@[simp] theorem reported_nil : reported [] = [] := rfl

@[simp] theorem reported_append (vs vs' : List Violation) :
    reported (vs ++ vs') = reported vs ++ reported vs' := by
  simp [reported]

@[simp] theorem reported_hide (vs : List Violation) : reported (vs.map hide) = [] := by
  simp [reported, hide]

/-- Reports of which the first hides the others. -/
def leading : List Diagnostic → List Violation
  | [] => []
  | d :: rest => ⟨d, false⟩ :: rest.map (⟨·, true⟩)

theorem reported_leading (ds : List Diagnostic) : reported (leading ds) = ds.head?.toList := by
  cases ds with
  | nil => rfl
  | cons d rest => simp [reported, leading]

/-- A name is declared where `here` are the names of the scope so far, or nothing at top level. If
the scope has the name, then what is wrong inside the declaration stays hidden. -/
def ofDeclaration (here : Option (List String)) (name : String) (line : Nat)
    (inner : List Violation) : List Violation :=
  if here.any (·.contains name) then
    ⟨⟨line, .scope (.redeclared name)⟩, false⟩ :: inner.map hide
  else inner

theorem reported_ofDeclaration (here : Option (List String)) (name : String) (line : Nat)
    (inner : List Violation) : reported (ofDeclaration here name line inner) =
      if here.any (·.contains name) then [⟨line, .scope (.redeclared name)⟩]
      else reported inner := by
  rw [ofDeclaration]
  split
  · have hinner := reported_hide inner
    simp only [reported] at hinner ⊢
    simp [hinner]
  · rfl

/-- A declaration that is accepted. -/
theorem reported_ofDeclaration_eq_nil {here : Option (List String)} {name : String} {line : Nat}
    {inner : List Violation} : reported (ofDeclaration here name line inner) = [] ↔
      here.any (·.contains name) = false ∧ reported inner = [] := by
  rw [reported_ofDeclaration]
  cases here.any (·.contains name) <;> simp

end Violation

open Violation

namespace VarDecl

/-- The uses of a variable inside its own initializer. -/
def ownUses (decl : VarDecl) : List Diagnostic :=
  (optionalUses decl.initializer).filterMap fun u =>
    if u.name = decl.name then some ⟨u.line, .scope .ownInitializer⟩ else none

/-- A global variable may be used in its own initializer. -/
def violations (here : Option (List String)) (decl : VarDecl) : List Violation :=
  ofDeclaration here decl.name decl.line (if here.isSome then leading decl.ownUses else [])

end VarDecl

namespace ForInit

def violations : ForInit → List Violation
  | declare decl => decl.violations (some [])
  | _ => []

/-- The names that the innermost scope has for the other parts of a loop. -/
def here (around : Option (List String)) : ForInit → Option (List String)
  | declare decl => some [decl.name]
  | _ => around

theorem extend_head? (init : ForInit) (vis : Visible) :
    (init.extend vis).head? = init.here vis.head? := by
  cases init <;> rfl

end ForInit

/-- The parameters behind the `earlier` ones of a function on `line`. -/
def paramViolations (line : Nat) : List String → List String → List Violation
  | _, [] => []
  | earlier, name :: rest =>
    ofDeclaration (some earlier) name line [] ++ paramViolations line (earlier ++ [name]) rest

mutual
/-- All that is wrong in a statement, in the order of the program. -/
def Stmt.violations (here : Option (List String)) : Stmt → List Violation
  | .var decl => decl.violations here
  | .function decl => ofDeclaration here decl.name decl.line (functionViolations decl)
  | .classDecl name methods line => ofDeclaration here name line (methodsViolations methods)
  | .block statements _ => statementsViolations (some []) statements
  | .ifThen _ thenBranch _ => thenBranch.violations here
  | .ifElse _ thenBranch elseBranch _ =>
    thenBranch.violations here ++ elseBranch.violations (here.map (· ++ thenBranch.declared))
  | .whileLoop _ body _ => body.violations here
  | .forLoop init _ _ body _ => init.violations ++ body.violations (init.here here)
  | .expression _ _ | .print _ _ | .loopExit _ _ | .returns _ _ => []

def statementsViolations (here : Option (List String)) : List Stmt → List Violation
  | [] => []
  | s :: rest => s.violations here ++ statementsViolations (here.map (· ++ s.declared)) rest

/-- The body of a function shares the scope of the parameters. -/
def functionViolations : FunDecl Stmt → List Violation
  | ⟨_, params, body, line, _⟩ =>
    paramViolations line [] params ++ statementsViolations (some params) body

def methodsViolations : List (FunDecl Stmt) → List Violation
  | [] => []
  | d :: rest => functionViolations d ++ methodsViolations rest
end

/-- The violations of a program, whose own variables are global. -/
def programViolations (program : List Stmt) : List Violation := statementsViolations none program

/-! Walks. -/

namespace Scoping

variable {s : Scoping} {vis : Visible}

theorem isTaken_eq (h : Scope.AllShow s.scopes vis) (name : String) :
    s.isTaken name = vis.head?.any (·.contains name) := by
  rcases s with ⟨scopes, reports⟩
  cases h with
  | nil => rfl
  | @cons scope names _ _ hs _ =>
    by_cases hn : name ∈ names <;> simp [isTaken, Scope.declares, hs name, hn]

/-- Where no initializer is around, an expression has no fault. -/
theorem locate_eq (h : Scope.AllShow s.scopes vis) (e : Expr) : (s.locate e).2 = s := by
  simp only [locate, h.locate_none]

theorem locate?_eq (h : Scope.AllShow s.scopes vis) (e? : Option Expr) :
    (s.locate? e?).2 = s := by
  cases e? with
  | none => rfl
  | some e => exact locate_eq h e

theorem locate_reports (s : Scoping) (e : Expr) :
    (s.locate e).2.reports = s.reports ++ (e.locate s.scopes).2.toList := by
  simp only [locate]
  cases (e.locate s.scopes).2 with
  | none => exact (List.append_nil _).symm
  | some d => rfl

/-- While a local variable is initialized, its uses are the faults. -/
theorem fault?_record (h : Scope.AllShow s.scopes vis) (hv : vis ≠ []) (name : String) (u : Use) :
    u.fault? (s.record name false).scopes =
      if u.name = name then some ⟨u.line, .scope .ownInitializer⟩ else none := by
  rw [Use.fault?, fault?_pending h hv]
  by_cases hn : u.name = name
  · simp [Occurrence.fault?, Scope.isPending, hn]
  · have hne : (u.name == name) = false := by simpa using hn
    simp [Occurrence.fault?, Scope.isPending, List.lookup_cons, hne, hn]

theorem locateInitializer_reports (h : Scope.AllShow s.scopes vis) (decl : VarDecl) :
    ((s.record decl.name false).locate? decl.initializer).2.reports =
      s.reports ++ reported (if vis.head?.isSome then leading decl.ownUses else []) := by
  rcases decl with ⟨name, _ | e, line⟩
  · simp [locate?, VarDecl.ownUses, optionalUses, leading]
  · simp only [locate?, locate_reports, record_reports]
    cases vis with
    | nil =>
      have hs : (s.record name false).scopes = s.scopes := by
        cases s
        cases h
        rfl
      simp [hs, h.locate_none]
    | cons names outer =>
      have hfault : e.uses.findSome? (Use.fault? (s.record name false).scopes) =
          (VarDecl.ownUses ⟨name, some e, line⟩).head? := by
        rw [VarDecl.ownUses, List.head?_filterMap]
        exact congrArg (List.findSome? · _) (funext (fault?_record h (by simp) name))
      simp only [Expr.locate_fault_eq, hfault, List.head?_cons, Option.isSome_some, if_true,
        reported_leading]

theorem locateVar_reports (h : Scope.AllShow s.scopes vis) (decl : VarDecl) :
    (s.locateVar decl).2.reports = s.reports ++ reported (decl.violations vis.head?) := by
  rw [locateVar, VarDecl.violations, reported_ofDeclaration, ← isTaken_eq h]
  split
  · rfl
  · simp only [record_reports, locateInitializer_reports h]

theorem declareParams_reports {names params : List String} (line : Nat)
    (h : Scope.AllShow s.scopes (names :: vis)) : (s.declareParams line params).reports =
      s.reports ++ reported (paramViolations line names params) := by
  induction params generalizing s names with
  | nil => simp [declareParams, paramViolations]
  | cons name rest ih =>
    have htaken : s.isTaken name = (some names).any (·.contains name) := isTaken_eq h name
    rw [declareParams, paramViolations, reported_append, reported_ofDeclaration, ← htaken]
    split
    next ht =>
      have hagain : Scope.AllShow s.scopes ((names ++ [name]) :: vis) :=
        h.again ((isTaken_eq_true_iff h).1 ht)
      rw [ih (s := s.redeclared name line) hagain, ← List.append_assoc]
      rfl
    next =>
      rw [ih (record_allShow h name).of_declare, record_reports]
      rfl

theorem locateInit_reports (h : Scope.AllShow s.scopes vis) (init : ForInit) :
    ((if init.isDeclaration then s.enter [] else s).locateInit init).2.reports =
      s.reports ++ reported init.violations := by
  cases init with
  | nothing => exact (List.append_nil _).symm
  | declare decl =>
    have hin : Scope.AllShow (s.enter []).scopes ([] :: vis) := .cons .nil h
    exact locateVar_reports hin decl
  | evaluate e =>
    have hsame := locate_eq h e
    simp [locateInit, ForInit.isDeclaration, ForInit.violations, hsame]

end Scoping

open Scoping in
mutual
/-- The walk of a statement reports what is wrong in it, as far as it is not hidden. -/
theorem Stmt.locate_reports {vis : Visible} {s : Scoping} : (stmt : Stmt) →
    Scope.AllShow s.scopes vis →
      (stmt.locate s).2.reports = s.reports ++ reported (stmt.violations vis.head?)
  | .expression e _, h | .print e _, h => by
    simp [Stmt.locate, Stmt.violations, locate_eq h]
  | .var decl, h => locateVar_reports h decl
  | .function decl, h => by
    have hin := locateFunction_reports decl (record_allShow h decl.name)
    rw [Stmt.locate, Stmt.violations, reported_ofDeclaration, ← isTaken_eq h]
    split
    · rfl
    · rw [hin, record_reports]
  | .classDecl name methods line, h => by
    have hthis : Scope.Shows [("this", true)] ["this"] := .cons .nil fun _ _ => rfl
    have hin := locateMethods_reports (s := (s.record name true).enter [("this", true)]) methods
      (.cons hthis (record_allShow h name))
    rw [Stmt.locate, Stmt.violations, reported_ofDeclaration, ← isTaken_eq h]
    split
    · rfl
    · rw [leave_reports, hin, enter_reports, record_reports]
  | .block statements _, h => by
    have hin : Scope.AllShow (s.enter []).scopes ([] :: vis) := .cons .nil h
    exact locateStatements_reports statements hin
  | .ifThen condition thenBranch _, h => by
    simp only [Stmt.locate, Stmt.violations, locate_eq h]
    exact thenBranch.locate_reports h
  | .ifElse condition thenBranch elseBranch _, h => by
    simp only [Stmt.locate, Stmt.violations, locate_eq h, reported_append]
    rw [elseBranch.locate_reports (thenBranch.locate_shows h), thenBranch.locate_reports h,
      Visible.declareAll_head?, List.append_assoc]
  | .whileLoop condition body _, h => by
    simp only [Stmt.locate, Stmt.violations, locate_eq h]
    exact body.locate_reports h
  | .forLoop init condition increment body _, h => by
    have hinit := locateInit_shows h init
    have hbody := body.locate_reports hinit
    simp only [locateInit_reports h, List.append_assoc, ← reported_append, init.extend_head?]
      at hbody
    simp only [Stmt.locate, Stmt.violations, locate?_eq hinit, apply_ite Scoping.reports,
      leave_reports, ite_self]
    exact hbody
  | .loopExit _ _, h => by simp [Stmt.locate, Stmt.violations]
  | .returns value _, h => by simp [Stmt.locate, Stmt.violations, locate?_eq h]

theorem locateStatements_reports {vis : Visible} {s : Scoping} : (statements : List Stmt) →
    Scope.AllShow s.scopes vis → (locateStatements statements s).2.reports =
      s.reports ++ reported (statementsViolations vis.head? statements)
  | [], _ => (List.append_nil _).symm
  | first :: rest, h => by
    simp only [locateStatements, statementsViolations, reported_append]
    rw [locateStatements_reports rest (first.locate_shows h), first.locate_reports h,
      Visible.declareAll_head?, List.append_assoc]

theorem locateFunction_reports {vis : Visible} {s : Scoping} : (decl : FunDecl Stmt) →
    Scope.AllShow s.scopes vis →
      (locateFunction decl s).2.reports = s.reports ++ reported (functionViolations decl)
  | ⟨_, params, body, line, _⟩, h => by
    have hin : Scope.AllShow (s.enter []).scopes ([] :: vis) := .cons .nil h
    simp only [locateFunction, functionViolations, reported_append, leave_reports]
    rw [locateStatements_reports body (declareParams_shows hin line), declareParams_reports line hin,
      List.append_assoc]
    rfl

theorem locateMethods_reports {vis : Visible} {s : Scoping} : (methods : List (FunDecl Stmt)) →
    Scope.AllShow s.scopes vis →
      (locateMethods methods s).2.reports = s.reports ++ reported (methodsViolations methods)
  | [], _ => (List.append_nil _).symm
  | d :: rest, h => by
    simp only [locateMethods, methodsViolations, reported_append]
    rw [locateMethods_reports rest (locateFunction_shows d h), locateFunction_reports d h,
      List.append_assoc]
end

/-! Programs. -/

theorem locateProgram_reports (program : List Stmt) :
    (locateProgram program).2 = reported (programViolations program) := by
  have hstart : Scope.AllShow Scoping.start.scopes [] := .nil
  exact locateStatements_reports program hstart

namespace Violation

/-- Hidden violations are the ones that lack a report. -/
theorem subperm_reported_iff (vs : List Violation) :
    (vs.map report).Subperm (reported vs) ↔ ∀ v ∈ vs, v.hidden = false := by
  constructor
  · intro hsub v hv
    have hlength : vs.length ≤ (vs.filter (!·.hidden)).length := by
      simpa [reported] using hsub.length_le
    have hall : vs.filter (!·.hidden) = vs :=
      List.filter_sublist.eq_of_length_le hlength
    have hkept : v ∈ vs.filter (!·.hidden) := by rwa [hall]
    simpa using (List.mem_filter.1 hkept).2
  · intro hseen
    have hall : vs.filter (!·.hidden) = vs := List.filter_eq_self.2 fun v hv => by simp [hseen v hv]
    rw [reported, hall]

end Violation

/-- The walk reports each violation that no earlier one hides, in the order of the program. So there
is a report for every violation exactly if none is hidden. -/
theorem locateProgram_reports_unhidden (program : List Stmt) :
    (locateProgram program).2 = reported (programViolations program) ∧
      (((programViolations program).map report).Subperm (locateProgram program).2 ↔
        ∀ v ∈ programViolations program, v.hidden = false) := by
  have hreports := locateProgram_reports program
  rw [hreports]
  exact ⟨rfl, subperm_reported_iff _⟩

/-- Not every violation has a report: `{ var a = a + a; }` has one in each operand, and the walk
leaves the initializer at the first. -/
theorem second_own_use_unreported : ¬ ∀ program : List Stmt,
    ((programViolations program).map report).Subperm (locateProgram program).2 := by
  intro hall
  have hlength := (hall [.block [.var ⟨"a", some
    (.binary (.read ⟨"a", .global⟩ 1) (.strict .add) (.read ⟨"a", .global⟩ 1) 1), 1⟩] 1]).length_le
  revert hlength
  decide

end Lox
