import Lox.Session

/-! A tree and a machine side by side, to work on the tree step by step. -/
namespace Lox

mutual
/-- The functions and methods declared in a statement, outer ones first. -/
def Stmt.functions : Stmt → List (FunDecl Stmt)
  | .function decl => functionsOf decl
  | .classDecl _ methods _ => methodFunctions methods
  | .block statements _ => statementFunctions statements
  | .ifThen _ thenBranch _ => thenBranch.functions
  | .ifElse _ thenBranch elseBranch _ => thenBranch.functions ++ elseBranch.functions
  | .whileLoop _ body _ => body.functions
  | .forLoop _ _ _ body _ => body.functions
  | .expression _ _ | .print _ _ | .var _ | .loopExit _ _ | .returns _ _ => []

def statementFunctions : List Stmt → List (FunDecl Stmt)
  | [] => []
  | s :: rest => s.functions ++ statementFunctions rest

def functionsOf : FunDecl Stmt → List (FunDecl Stmt)
  | ⟨name, params, body, line, site⟩ =>
    ⟨name, params, body, line, site⟩ :: statementFunctions body

def methodFunctions : List (FunDecl Stmt) → List (FunDecl Stmt)
  | [] => []
  | d :: rest => functionsOf d ++ methodFunctions rest
end

mutual
/-- A statement whose declarations have sites from `n` on, and the first site behind them. -/
def Stmt.withSites : Stmt → Nat → Stmt × Nat
  | .function decl, n =>
    let d := functionWithSites decl n
    (.function d.1, d.2)
  | .classDecl name methods line, n =>
    let m := functionsWithSites methods n
    (.classDecl name m.1 line, m.2)
  | .block statements line, n =>
    let b := statementsWithSites statements n
    (.block b.1 line, b.2)
  | .ifThen condition thenBranch line, n =>
    let t := thenBranch.withSites n
    (.ifThen condition t.1 line, t.2)
  | .ifElse condition thenBranch elseBranch line, n =>
    let t := thenBranch.withSites n
    let e := elseBranch.withSites t.2
    (.ifElse condition t.1 e.1 line, e.2)
  | .whileLoop condition body line, n =>
    let b := body.withSites n
    (.whileLoop condition b.1 line, b.2)
  | .forLoop init condition increment body line, n =>
    let b := body.withSites n
    (.forLoop init condition increment b.1 line, b.2)
  | .expression e line, n => (.expression e line, n)
  | .print e line, n => (.print e line, n)
  | .var decl, n => (.var decl, n)
  | .loopExit exit line, n => (.loopExit exit line, n)
  | .returns value line, n => (.returns value line, n)

def statementsWithSites : List Stmt → Nat → List Stmt × Nat
  | [], n => ([], n)
  | s :: rest, n =>
    let f := s.withSites n
    let r := statementsWithSites rest f.2
    (f.1 :: r.1, r.2)

def functionWithSites : FunDecl Stmt → Nat → FunDecl Stmt × Nat
  | ⟨name, params, body, line, _⟩, n =>
    let b := statementsWithSites body (n + 1)
    (⟨name, params, b.1, line, n⟩, b.2)

def functionsWithSites : List (FunDecl Stmt) → Nat → List (FunDecl Stmt) × Nat
  | [], n => ([], n)
  | d :: rest, n =>
    let f := functionWithSites d n
    let r := functionsWithSites rest f.2
    (f.1 :: r.1, r.2)
end

/-- One tree, whose declarations have different sites, and the machine it is executed on. -/
structure Workbench where
  tree : List Stmt
  machine : Machine

namespace Workbench

def start (tree : List Stmt) (machine : Machine) : Workbench :=
  ⟨(statementsWithSites tree 0).1, machine⟩

/-- Functions that were made from a tree keep to it when its depths change. -/
private def follow (tree : List Stmt) (h : Heap) : Heap :=
  let decls := statementFunctions tree
  let current (decl : FunDecl Stmt) := (decls.find? fun d => d.site = decl.site).getD decl
  { h with functions := h.functions.map fun f => { f with decl := current f.decl } }

/-- Gives the names of the tree their depths; those found before a fault stay. -/
def locate (w : Workbench) : List Diagnostic × Workbench :=
  let r := locateProgram w.tree
  (r.2, ⟨r.1, { w.machine with heap := follow r.1 w.machine.heap }⟩)

/-- Runs the tree as a program. -/
def interpret (fuel : Nat) (w : Workbench) : Option (Option Diagnostic × Workbench) :=
  (w.machine.interpret fuel w.tree).map fun r => (r.1, { w with machine := r.2 })

private def executeEach (fuel : Nat) :
    List Stmt → Machine → Option (List (Except Diagnostic Signal) × Machine)
  | [], m => some ([], m)
  | s :: rest, m =>
    match execute fuel s m with
    | .done signal m => (executeEach fuel rest m).map fun r => (.ok signal :: r.1, r.2)
    | .failed d m => (executeEach fuel rest m).map fun r => (.error d :: r.1, r.2)
    | .outOfFuel => none

/-- Executes every statement of the tree by itself, also behind one that fails. -/
def execute (fuel : Nat) (w : Workbench) :
    Option (List (Except Diagnostic Signal) × Workbench) :=
  (executeEach fuel w.tree w.machine).map fun r => (r.1, { w with machine := r.2 })

end Workbench
end Lox
