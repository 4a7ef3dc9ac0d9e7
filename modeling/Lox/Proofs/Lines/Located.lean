import Lox.Proofs.Lines.Relined
import Lox.Scope.Locate

/-! The walk of the scopes and lines: it reports at the lines that a tree has, looks at none of
them, and keeps the number of open scopes. -/
namespace Lox

section
variable (φ : Nat → Nat)

/-- The state with other lines in its reports. -/
def Scoping.relined (s : Scoping) : Scoping := { s with reports := s.reports.map (.relined φ) }

theorem Occurrence.fault?_relined (scopes : List Scope) (o : Occurrence) (line : Nat) :
    o.fault? scopes (φ line) = (o.fault? scopes line).map (Diagnostic.relined φ) := by
  unfold Occurrence.fault?
  split
  · rfl
  · split <;> rfl

mutual
theorem Expr.locate_relined (scopes : List Scope) : (e : Expr) → (e.relined φ).locate scopes =
    ((e.locate scopes).1.relined φ, (e.locate scopes).2.map (Diagnostic.relined φ))
  | .literal _ _ => rfl
  | .group inner _ => by simp only [Expr.relined, Expr.locate, inner.locate_relined]
  | .unary _ right _ => by simp only [Expr.relined, Expr.locate, right.locate_relined]
  | .binary left _ right _ => by
    simp only [Expr.relined, Expr.locate, left.locate_relined, right.locate_relined]
    cases (left.locate scopes).2 <;> rfl
  | .read o line => by
    simp only [Expr.relined, Expr.locate, Occurrence.fault?_relined]
    cases o.fault? scopes line <;> rfl
  | .this _ _ => rfl
  | .assign target value line => by
    simp only [Expr.relined, Expr.locate, value.locate_relined, Occurrence.fault?_relined]
    cases (value.locate scopes).2 with
    | some d => rfl
    | none => cases target.fault? scopes line <;> rfl
  | .get object _ _ => by simp only [Expr.relined, Expr.locate, object.locate_relined]
  | .set object _ value _ => by
    simp only [Expr.relined, Expr.locate, object.locate_relined, value.locate_relined]
    cases (value.locate scopes).2 <;> rfl
  | .call callee arguments _ => by
    simp only [Expr.relined, Expr.locate, callee.locate_relined, locateArguments_relined]
    cases (callee.locate scopes).2 <;> rfl

theorem locateArguments_relined (scopes : List Scope) : (es : List Expr) →
    locateArguments scopes (argumentsRelined φ es) =
      (argumentsRelined φ (locateArguments scopes es).1,
        (locateArguments scopes es).2.map (Diagnostic.relined φ))
  | [] => rfl
  | e :: rest => by
    simp only [argumentsRelined, locateArguments, e.locate_relined, locateArguments_relined]
    cases (e.locate scopes).2 <;> rfl
end

namespace Scoping

variable (s : Scoping)

@[simp] theorem relined_scopes : (s.relined φ).scopes = s.scopes := rfl

@[simp] theorem relined_isTaken (name : String) : (s.relined φ).isTaken name = s.isTaken name := rfl

@[simp] theorem relined_enter (scope : Scope) :
    (s.relined φ).enter scope = (s.enter scope).relined φ := rfl

@[simp] theorem relined_leave : (s.relined φ).leave = s.leave.relined φ := rfl

@[simp] theorem relined_record (name : String) (ready : Bool) :
    (s.relined φ).record name ready = (s.record name ready).relined φ := by
  simp only [record, relined_scopes]
  cases s.scopes <;> rfl

@[simp] theorem relined_redeclared (name : String) (line : Nat) :
    (s.relined φ).redeclared name (φ line) = (s.redeclared name line).relined φ := by
  simp [redeclared, report, relined, Diagnostic.relined]

theorem locate_relined (e : Expr) : (s.relined φ).locate (e.relined φ) =
    ((s.locate e).1.relined φ, (s.locate e).2.relined φ) := by
  simp only [locate, relined_scopes, Expr.locate_relined]
  cases (e.locate s.scopes).2 with
  | none => rfl
  | some d => simp [report, relined]

theorem locate?_relined (e? : Option Expr) : (s.relined φ).locate? (e?.map (Expr.relined φ)) =
    ((s.locate? e?).1.map (Expr.relined φ), (s.locate? e?).2.relined φ) := by
  cases e? with
  | none => rfl
  | some e => simp only [Option.map_some, locate?, locate_relined]

theorem locateVar_relined (decl : VarDecl) : (s.relined φ).locateVar (decl.relined φ) =
    ((s.locateVar decl).1.relined φ, (s.locateVar decl).2.relined φ) := by
  simp only [locateVar, relined_isTaken, VarDecl.relined, relined_redeclared, relined_record,
    locate?_relined]
  cases s.isTaken decl.name <;> rfl

theorem locateInit_relined (init : ForInit) : (s.relined φ).locateInit (init.relined φ) =
    ((s.locateInit init).1.relined φ, (s.locateInit init).2.relined φ) := by
  cases init with
  | nothing => rfl
  | declare decl => simp only [ForInit.relined, locateInit, locateVar_relined]
  | evaluate e => simp only [ForInit.relined, locateInit, locate_relined]

theorem declareParams_relined (line : Nat) (params : List String) :
    (s.relined φ).declareParams (φ line) params = (s.declareParams line params).relined φ := by
  induction params generalizing s with
  | nil => rfl
  | cons name rest ih =>
    simp only [declareParams, relined_isTaken, relined_redeclared, relined_record, ih]
    split <;> rfl

end Scoping

@[simp] theorem ForInit.relined_isDeclaration (init : ForInit) :
    (init.relined φ).isDeclaration = init.isDeclaration := by
  cases init <;> rfl

open Scoping in
mutual
theorem Stmt.locate_relined : (stmt : Stmt) → (s : Scoping) →
    (stmt.relined φ).locate (s.relined φ) =
      ((stmt.locate s).1.relined φ, (stmt.locate s).2.relined φ)
  | .expression e _, s => by simp only [Stmt.relined, Stmt.locate, Scoping.locate_relined]
  | .print e _, s => by simp only [Stmt.relined, Stmt.locate, Scoping.locate_relined]
  | .var decl, s => by simp only [Stmt.relined, Stmt.locate, locateVar_relined]
  | .function decl, s => by
    simp only [Stmt.relined, Stmt.locate, relined_isTaken, functionRelined_name,
      functionRelined_line, relined_redeclared, relined_record, locateFunction_relined]
    cases s.isTaken decl.name <;> rfl
  | .classDecl name methods _, s => by
    simp only [Stmt.relined, Stmt.locate, relined_isTaken, relined_redeclared, relined_record,
      relined_enter, locateMethods_relined]
    cases s.isTaken name <;> rfl
  | .block statements _, s => by
    simp only [Stmt.relined, Stmt.locate, relined_enter, locateStatements_relined, relined_leave]
  | .ifThen condition thenBranch _, s => by
    simp only [Stmt.relined, Stmt.locate, Scoping.locate_relined, thenBranch.locate_relined]
  | .ifElse condition thenBranch elseBranch _, s => by
    simp only [Stmt.relined, Stmt.locate, Scoping.locate_relined, thenBranch.locate_relined,
      elseBranch.locate_relined]
  | .whileLoop condition body _, s => by
    simp only [Stmt.relined, Stmt.locate, Scoping.locate_relined, body.locate_relined]
  | .forLoop init condition increment body _, s => by
    have henter : (if init.isDeclaration then (s.enter []).relined φ else s.relined φ) =
        (if init.isDeclaration then s.enter [] else s).relined φ := by split <;> rfl
    simp only [Stmt.relined, Stmt.locate, ForInit.relined_isDeclaration, relined_enter, henter,
      locateInit_relined, locate?_relined, body.locate_relined, relined_leave]
    cases init.isDeclaration <;> rfl
  | .loopExit _ _, s => rfl
  | .returns value _, s => by simp only [Stmt.relined, Stmt.locate, locate?_relined]

theorem locateStatements_relined : (statements : List Stmt) → (s : Scoping) →
    locateStatements (statementsRelined φ statements) (s.relined φ) =
      (statementsRelined φ (locateStatements statements s).1,
        (locateStatements statements s).2.relined φ)
  | [], s => rfl
  | first :: rest, s => by
    simp only [statementsRelined, locateStatements, first.locate_relined,
      locateStatements_relined rest]

theorem locateFunction_relined : (decl : FunDecl Stmt) → (s : Scoping) →
    locateFunction (functionRelined φ decl) (s.relined φ) =
      (functionRelined φ (locateFunction decl s).1, (locateFunction decl s).2.relined φ)
  | ⟨_, _, body, _, _⟩, s => by
    simp only [functionRelined, locateFunction, relined_enter, declareParams_relined,
      locateStatements_relined body, relined_leave]

theorem locateMethods_relined : (methods : List (FunDecl Stmt)) → (s : Scoping) →
    locateMethods (methodsRelined φ methods) (s.relined φ) =
      (methodsRelined φ (locateMethods methods s).1, (locateMethods methods s).2.relined φ)
  | [], s => rfl
  | method :: rest, s => by
    simp only [methodsRelined, locateMethods, locateFunction_relined method,
      locateMethods_relined rest]
end

theorem locateProgram_relined (statements : List Stmt) :
    locateProgram (statementsRelined φ statements) =
      (statementsRelined φ (locateProgram statements).1,
        (locateProgram statements).2.map (Diagnostic.relined φ)) := by
  have h := locateStatements_relined φ statements .start
  simp only [locateProgram, Scoping.relined, Scoping.start, List.map_nil] at h ⊢
  rw [h]

end

/-! Open scopes. -/

namespace Scoping

variable (s : Scoping)

@[simp] theorem enter_length (scope : Scope) :
    (s.enter scope).scopes.length = s.scopes.length + 1 := rfl

@[simp] theorem leave_length : s.leave.scopes.length = s.scopes.length - 1 := List.length_tail

@[simp] theorem record_length (name : String) (ready : Bool) :
    (s.record name ready).scopes.length = s.scopes.length := by
  rcases s with ⟨_ | ⟨scope, outer⟩, reports⟩ <;> rfl

@[simp] theorem redeclared_length (name : String) (line : Nat) :
    (s.redeclared name line).scopes.length = s.scopes.length := rfl

@[simp] theorem locate_length (e : Expr) : (s.locate e).2.scopes.length = s.scopes.length := by
  simp only [locate]
  split <;> rfl

@[simp] theorem locate?_length (e? : Option Expr) :
    (s.locate? e?).2.scopes.length = s.scopes.length := by
  cases e? with
  | none => rfl
  | some e => exact s.locate_length e

@[simp] theorem locateVar_length (decl : VarDecl) :
    (s.locateVar decl).2.scopes.length = s.scopes.length := by
  unfold locateVar
  split <;> simp

@[simp] theorem locateInit_length (init : ForInit) :
    (s.locateInit init).2.scopes.length = s.scopes.length := by
  cases init with
  | nothing => rfl
  | declare decl => exact s.locateVar_length decl
  | evaluate e => exact s.locate_length e

@[simp] theorem declareParams_length (line : Nat) (params : List String) :
    (s.declareParams line params).scopes.length = s.scopes.length := by
  induction params generalizing s with
  | nil => rfl
  | cons name rest ih =>
    unfold declareParams
    split <;> simp [ih]

end Scoping

mutual
theorem Stmt.locate_length : (stmt : Stmt) → (s : Scoping) →
    (stmt.locate s).2.scopes.length = s.scopes.length
  | .expression _ _, s => by simp [Stmt.locate]
  | .print _ _, s => by simp [Stmt.locate]
  | .var _, s => by simp [Stmt.locate]
  | .function decl, s => by
    rw [Stmt.locate]
    split <;> simp [locateFunction_length decl]
  | .classDecl _ methods _, s => by
    rw [Stmt.locate]
    split <;> simp [locateMethods_length methods]
  | .block statements _, s => by simp [Stmt.locate, locateStatements_length statements]
  | .ifThen _ thenBranch _, s => by simp [Stmt.locate, thenBranch.locate_length]
  | .ifElse _ thenBranch elseBranch _, s => by
    simp [Stmt.locate, thenBranch.locate_length, elseBranch.locate_length]
  | .whileLoop _ body _, s => by simp [Stmt.locate, body.locate_length]
  | .forLoop init _ _ body _, s => by
    cases h : init.isDeclaration <;> simp [Stmt.locate, body.locate_length, h]
  | .loopExit _ _, s => rfl
  | .returns _ _, s => by simp [Stmt.locate]

theorem locateStatements_length : (statements : List Stmt) → (s : Scoping) →
    (locateStatements statements s).2.scopes.length = s.scopes.length
  | [], s => rfl
  | first :: rest, s => by
    simp [locateStatements, first.locate_length, locateStatements_length rest]

theorem locateFunction_length : (decl : FunDecl Stmt) → (s : Scoping) →
    (locateFunction decl s).2.scopes.length = s.scopes.length
  | ⟨_, _, body, _, _⟩, s => by simp [locateFunction, locateStatements_length body]

theorem locateMethods_length : (methods : List (FunDecl Stmt)) → (s : Scoping) →
    (locateMethods methods s).2.scopes.length = s.scopes.length
  | [], s => rfl
  | method :: rest, s => by
    simp [locateMethods, locateFunction_length method, locateMethods_length rest]
end

end Lox
