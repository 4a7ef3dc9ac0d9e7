import Lox.Proofs.Scope.WellScoped

/-! What a piece of code declares in the scope around it, and the scopes that the walk has behind it.
This holds of every tree, whether its declarations are accepted or not. -/
namespace Lox

namespace Stmt

/-- The names that a statement declares in the scope around it, as they come. Branches and bodies
have no scope of their own. -/
def declared : Stmt → List String
  | var decl => [decl.name]
  | function decl => [decl.name]
  | classDecl name _ _ => [name]
  | ifThen _ thenBranch _ => thenBranch.declared
  | ifElse _ thenBranch elseBranch _ => thenBranch.declared ++ elseBranch.declared
  | whileLoop _ body _ => body.declared
  | forLoop init _ _ body _ => if init.isDeclaration then [] else body.declared
  | expression _ _ | print _ _ | block _ _ | loopExit _ _ | returns _ _ => []

/-- Placing names does not change what is declared. -/
theorem locate_declared : (stmt : Stmt) → (s : Scoping) →
    (stmt.locate s).1.declared = stmt.declared
  | var decl, s => by
    simp only [locate, Scoping.locateVar]
    split <;> rfl
  | function decl, s => by
    simp only [locate]
    split
    · rfl
    · simp only [declared, locateFunction_name]
  | classDecl _ _ _, s => by
    simp only [locate]
    split <;> rfl
  | ifThen _ thenBranch _, s => thenBranch.locate_declared _
  | ifElse _ thenBranch elseBranch _, s => by
    simp only [locate, declared, thenBranch.locate_declared, elseBranch.locate_declared]
  | whileLoop _ body _, s => body.locate_declared _
  | forLoop init _ _ body _, s => by
    simp only [locate, declared, body.locate_declared]
    cases init <;> rfl
  | expression _ _, _ | print _ _, _ | block _ _, _ | loopExit _ _, _ | returns _ _, _ => rfl

end Stmt

/-- The innermost scope, if there is one, gets further names. -/
def Visible.declareAll (vis : Visible) (names : List String) : Visible :=
  match vis with
  | [] => []
  | here :: outer => (here ++ names) :: outer

namespace Visible

variable (vis : Visible) (names names' : List String)

@[simp] theorem declareAll_top : declareAll [] names = [] := rfl

@[simp] theorem declareAll_cons (here : List String) :
    declareAll (here :: vis) names = (here ++ names) :: vis := rfl

@[simp] theorem declareAll_nil : vis.declareAll [] = vis := by
  cases vis with
  | nil => rfl
  | cons here outer => rw [declareAll_cons, List.append_nil]

@[simp] theorem declareAll_append :
    vis.declareAll (names ++ names') = (vis.declareAll names).declareAll names' := by
  cases vis with
  | nil => rfl
  | cons here outer => simp only [declareAll_cons, List.append_assoc]

@[simp] theorem declareAll_tail : (vis.declareAll names).tail = vis.tail := by
  cases vis <;> rfl

@[simp] theorem declareAll_head? :
    (vis.declareAll names).head? = vis.head?.map (· ++ names) := by
  cases vis <;> rfl

end Visible

namespace Scope.AllShow

variable {scopes : List Scope} {vis : Visible} {name : String}

/-- A name that is declared once more. -/
theorem again (h : Scope.AllShow scopes vis) (hn : ¬ vis.Takes name) :
    Scope.AllShow scopes (vis.declareAll [name]) := by
  cases h with
  | nil => exact .nil
  | @cons scope names scopes vis hs ho =>
    have hmem : name ∈ names := by simpa [Visible.Takes] using hn
    refine .cons (fun other => ?_) ho
    have hsame : other ∈ names ++ [name] ↔ other ∈ names := by
      simp only [List.mem_append, List.mem_singleton, or_iff_left_iff_imp]
      rintro rfl
      exact hmem
    rw [hs other]
    simp only [hsame]

theorem of_declare (h : Scope.AllShow scopes (vis.declare name)) :
    Scope.AllShow scopes (vis.declareAll [name]) := by
  cases vis with
  | nil => exact h
  | cons names outer => exact h.congr fun other => by simp [or_comm]

end Scope.AllShow

namespace Scoping

variable {s : Scoping} {vis : Visible}

theorem isTaken_eq_true_iff (h : Scope.AllShow s.scopes vis) {name : String} :
    s.isTaken name = true ↔ ¬ vis.Takes name := by
  rw [← isTaken_iff h, Bool.not_eq_false]

@[simp] theorem locate_scopes (s : Scoping) (e : Expr) : (s.locate e).2.scopes = s.scopes := by
  simp only [locate]
  cases (e.locate s.scopes).2 <;> rfl

@[simp] theorem locate?_scopes (s : Scoping) (e? : Option Expr) :
    (s.locate? e?).2.scopes = s.scopes := by
  cases e? with
  | none => rfl
  | some e => exact s.locate_scopes e

theorem record_scopes (s : Scoping) (name : String) (ready : Bool) :
    (s.record name ready).scopes =
      match s.scopes with
      | [] => []
      | scope :: outer => ((name, ready) :: scope) :: outer := by
  unfold record
  cases h : s.scopes with
  | nil => exact h
  | cons => rfl

theorem locateVar_shows (h : Scope.AllShow s.scopes vis) (decl : VarDecl) :
    Scope.AllShow (s.locateVar decl).2.scopes (vis.declareAll [decl.name]) := by
  rw [locateVar]
  split
  next ht => exact h.again ((isTaken_eq_true_iff h).1 ht)
  next =>
    have hready := record_record_allShow h decl.name
    simp only [record_scopes _ _ true, locate?_scopes] at hready ⊢
    exact hready.of_declare

theorem declareParams_shows {names params : List String}
    (h : Scope.AllShow s.scopes (names :: vis)) (line : Nat) :
    Scope.AllShow (s.declareParams line params).scopes ((names ++ params) :: vis) := by
  induction params generalizing s names with
  | nil => simpa [declareParams] using h
  | cons name rest ih =>
    have hnext {t : Scoping} (ht : Scope.AllShow t.scopes ((names ++ [name]) :: vis)) :
        Scope.AllShow (t.declareParams line rest).scopes ((names ++ name :: rest) :: vis) := by
      simpa using ih ht
    rw [declareParams]
    split
    next ht => exact hnext (h.again ((isTaken_eq_true_iff h).1 ht))
    next => exact hnext (record_allShow h name).of_declare

theorem locateInit_shows (h : Scope.AllShow s.scopes vis) (init : ForInit) :
    Scope.AllShow ((if init.isDeclaration then s.enter [] else s).locateInit init).2.scopes
      (init.extend vis) := by
  cases init with
  | nothing => exact h
  | declare decl =>
    have hin : Scope.AllShow (s.enter []).scopes ([] :: vis) := .cons .nil h
    exact locateVar_shows hin decl
  | evaluate e =>
    simp only [locateInit, ForInit.isDeclaration, Bool.false_eq_true, if_false, locate_scopes]
    exact h

end Scoping

/-- The names that statements of one scope declare. -/
def statementsDeclared (statements : List Stmt) : List String := statements.flatMap Stmt.declared

open Scoping in
mutual
/-- Behind a statement the scopes have what it declares. -/
theorem Stmt.locate_shows {vis : Visible} {s : Scoping} : (stmt : Stmt) →
    Scope.AllShow s.scopes vis →
      Scope.AllShow (stmt.locate s).2.scopes (vis.declareAll stmt.declared)
  | .expression e _, h | .print e _, h => by
    simpa only [Stmt.locate, locate_scopes, Stmt.declared, Visible.declareAll_nil]
  | .var decl, h => locateVar_shows h decl
  | .function decl, h => by
    simp only [Stmt.locate]
    split
    next ht => exact h.again ((isTaken_eq_true_iff h).1 ht)
    next => exact locateFunction_shows decl (record_allShow h decl.name).of_declare
  | .classDecl name methods _, h => by
    simp only [Stmt.locate]
    split
    next ht => exact h.again ((isTaken_eq_true_iff h).1 ht)
    next =>
      have hthis : Scope.Shows [("this", true)] ["this"] := .cons .nil fun _ _ => rfl
      have hin := locateMethods_shows (s := (s.record name true).enter [("this", true)]) methods
        (.cons hthis (record_allShow h name).of_declare)
      exact leave_allShow hin
  | .block statements _, h => by
    have hin := locateStatements_shows (s := s.enter []) statements (.cons .nil h)
    simpa [Stmt.locate, Stmt.declared] using leave_allShow hin
  | .ifThen condition thenBranch _, h => by
    simp only [Stmt.locate, Stmt.declared]
    exact thenBranch.locate_shows (by rwa [locate_scopes])
  | .ifElse condition thenBranch elseBranch _, h => by
    simp only [Stmt.locate, Stmt.declared, Visible.declareAll_append]
    exact elseBranch.locate_shows (thenBranch.locate_shows (by rwa [locate_scopes]))
  | .whileLoop condition body _, h => by
    simp only [Stmt.locate, Stmt.declared]
    exact body.locate_shows (by rwa [locate_scopes])
  | .forLoop init condition increment body _, h => by
    have hinit := locateInit_shows h init
    have hbody := body.locate_shows
      (s := ((((if init.isDeclaration then s.enter [] else s).locateInit init).2.locate?
        condition).2.locate? increment).2) (by rwa [locate?_scopes, locate?_scopes])
    simp only [Stmt.locate, Stmt.declared]
    cases init with
    | declare decl =>
      have hleft := leave_allShow hbody
      simp only [ForInit.isDeclaration, if_true, Visible.declareAll_nil, Visible.declareAll_tail]
        at hleft ⊢
      exact hleft
    | nothing | evaluate e => exact hbody
  | .loopExit _ _, h => by simpa only [Stmt.locate, Stmt.declared, Visible.declareAll_nil]
  | .returns value _, h => by
    simpa only [Stmt.locate, locate?_scopes, Stmt.declared, Visible.declareAll_nil]

theorem locateStatements_shows {vis : Visible} {s : Scoping} : (statements : List Stmt) →
    Scope.AllShow s.scopes vis →
      Scope.AllShow (locateStatements statements s).2.scopes
        (vis.declareAll (statementsDeclared statements))
  | [], h => by simpa [locateStatements, statementsDeclared] using h
  | first :: rest, h => by
    simp only [locateStatements, statementsDeclared, List.flatMap_cons, Visible.declareAll_append]
    exact locateStatements_shows rest (first.locate_shows h)

theorem locateFunction_shows {vis : Visible} {s : Scoping} : (decl : FunDecl Stmt) →
    Scope.AllShow s.scopes vis → Scope.AllShow (locateFunction decl s).2.scopes vis
  | ⟨_, params, body, line, _⟩, h => by
    have hin : Scope.AllShow (s.enter []).scopes ([] :: vis) := .cons .nil h
    exact leave_allShow (locateStatements_shows body (declareParams_shows hin line))

theorem locateMethods_shows {vis : Visible} {s : Scoping} : (methods : List (FunDecl Stmt)) →
    Scope.AllShow s.scopes vis → Scope.AllShow (locateMethods methods s).2.scopes vis
  | [], h => h
  | d :: rest, h => locateMethods_shows rest (locateFunction_shows d h)
end

end Lox
