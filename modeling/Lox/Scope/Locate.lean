import Lox.Scope

/-! The walk that gives every occurrence of a name its depth and finds the faults of scoping. -/
namespace Lox

/-- A name found in a scope gets its distance; any other keeps the depth it has. -/
def Occurrence.locate (scopes : List Scope) (o : Occurrence) : Occurrence :=
  match Scope.distance? o.name scopes with
  | some n => { o with depth := .hops n }
  | none => o

/-- The fault of an occurrence inside the initializer of its own name. -/
def Occurrence.fault? (scopes : List Scope) (o : Occurrence) (line : Nat) : Option Diagnostic :=
  match scopes with
  | [] => none
  | scope :: _ =>
    if scope.isPending o.name then some ⟨line, .scope .ownInitializer⟩ else none

mutual
/-- The walk of an expression stops at its first fault; what lies behind stays as it is. -/
def Expr.locate (scopes : List Scope) : Expr → Expr × Option Diagnostic
  | .literal value line => (.literal value line, none)
  | .group inner line =>
    let i := inner.locate scopes
    (.group i.1 line, i.2)
  | .unary op right line =>
    let r := right.locate scopes
    (.unary op r.1 line, r.2)
  | .binary left op right line =>
    let l := left.locate scopes
    match l.2 with
    | some d => (.binary l.1 op right line, some d)
    | none =>
      let r := right.locate scopes
      (.binary l.1 op r.1 line, r.2)
  | .read o line =>
    match o.fault? scopes line with
    | some d => (.read o line, some d)
    | none => (.read (o.locate scopes) line, none)
  | .this o line => (.this (o.locate scopes) line, none)
  | .assign target value line =>
    let v := value.locate scopes
    match v.2 with
    | some d => (.assign target v.1 line, some d)
    | none =>
      match target.fault? scopes line with
      | some d => (.assign target v.1 line, some d)
      | none => (.assign (target.locate scopes) v.1 line, none)
  | .get object name line =>
    let o := object.locate scopes
    (.get o.1 name line, o.2)
  | .set object name value line =>
    let v := value.locate scopes
    match v.2 with
    | some d => (.set object name v.1 line, some d)
    | none =>
      let o := object.locate scopes
      (.set o.1 name v.1 line, o.2)
  | .call callee arguments line =>
    let c := callee.locate scopes
    match c.2 with
    | some d => (.call c.1 arguments line, some d)
    | none =>
      let a := locateArguments scopes arguments
      (.call c.1 a.1 line, a.2)

def locateArguments (scopes : List Scope) : List Expr → List Expr × Option Diagnostic
  | [] => ([], none)
  | e :: rest =>
    let first := e.locate scopes
    match first.2 with
    | some d => (first.1 :: rest, some d)
    | none =>
      let more := locateArguments scopes rest
      (first.1 :: more.1, more.2)
end

namespace Scoping

/-- Walks a whole expression and reports its fault, if any. -/
def locate (s : Scoping) (e : Expr) : Expr × Scoping :=
  let r := e.locate s.scopes
  match r.2 with
  | some d => (r.1, s.report d)
  | none => (r.1, s)

def locate? (s : Scoping) : Option Expr → Option Expr × Scoping
  | none => (none, s)
  | some e =>
    let r := s.locate e
    (some r.1, r.2)

/-- A variable may be read once its initializer is behind it. A redeclared one is not walked. -/
def locateVar (s : Scoping) (decl : VarDecl) : VarDecl × Scoping :=
  if s.isTaken decl.name then (decl, s.redeclared decl.name decl.line)
  else
    let init := (s.record decl.name false).locate? decl.initializer
    ({ decl with initializer := init.1 }, init.2.record decl.name true)

def locateInit (s : Scoping) : ForInit → ForInit × Scoping
  | .nothing => (.nothing, s)
  | .declare decl =>
    let d := s.locateVar decl
    (.declare d.1, d.2)
  | .evaluate e =>
    let r := s.locate e
    (.evaluate r.1, r.2)

/-- Parameters may be read at once. A repeated one is reported at the line of the function. -/
def declareParams (s : Scoping) (line : Nat) : List String → Scoping
  | [] => s
  | name :: rest =>
    if s.isTaken name then (s.redeclared name line).declareParams line rest
    else (s.record name true).declareParams line rest

end Scoping

def ForInit.isDeclaration : ForInit → Bool
  | declare _ => true
  | _ => false

mutual
def Stmt.locate : Stmt → Scoping → Stmt × Scoping
  | .expression e line, s =>
    let r := s.locate e
    (.expression r.1 line, r.2)
  | .print e line, s =>
    let r := s.locate e
    (.print r.1 line, r.2)
  | .var decl, s =>
    let d := s.locateVar decl
    (.var d.1, d.2)
  | .function decl, s =>
    if s.isTaken decl.name then (.function decl, s.redeclared decl.name decl.line)
    else
      let d := locateFunction decl (s.record decl.name true)
      (.function d.1, d.2)
  | .classDecl name methods line, s =>
    if s.isTaken name then (.classDecl name methods line, s.redeclared name line)
    else
      let m := locateMethods methods ((s.record name true).enter [("this", true)])
      (.classDecl name m.1 line, m.2.leave)
  | .block statements line, s =>
    let b := locateStatements statements (s.enter [])
    (.block b.1 line, b.2.leave)
  | .ifThen condition thenBranch line, s =>
    let c := s.locate condition
    let t := thenBranch.locate c.2
    (.ifThen c.1 t.1 line, t.2)
  | .ifElse condition thenBranch elseBranch line, s =>
    let c := s.locate condition
    let t := thenBranch.locate c.2
    let e := elseBranch.locate t.2
    (.ifElse c.1 t.1 e.1 line, e.2)
  | .whileLoop condition body line, s =>
    let c := s.locate condition
    let b := body.locate c.2
    (.whileLoop c.1 b.1 line, b.2)
  | .forLoop init condition increment body line, s =>
    let i := (if init.isDeclaration then s.enter [] else s).locateInit init
    let c := i.2.locate? condition
    let n := c.2.locate? increment
    let b := body.locate n.2
    (.forLoop i.1 c.1 n.1 b.1 line, if init.isDeclaration then b.2.leave else b.2)
  | .loopExit exit line, s => (.loopExit exit line, s)
  | .returns value line, s =>
    let v := s.locate? value
    (.returns v.1 line, v.2)

def locateStatements : List Stmt → Scoping → List Stmt × Scoping
  | [], s => ([], s)
  | first :: rest, s =>
    let f := first.locate s
    let r := locateStatements rest f.2
    (f.1 :: r.1, r.2)

/-- The parameters and the body of a function share one scope. -/
def locateFunction : FunDecl Stmt → Scoping → FunDecl Stmt × Scoping
  | ⟨name, params, body, line, site⟩, s =>
    let b := locateStatements body ((s.enter []).declareParams line params)
    (⟨name, params, b.1, line, site⟩, b.2.leave)

def locateMethods : List (FunDecl Stmt) → Scoping → List (FunDecl Stmt) × Scoping
  | [], s => ([], s)
  | method :: rest, s =>
    let m := locateFunction method s
    let r := locateMethods rest m.2
    (m.1 :: r.1, r.2)
end

/-- The program with the depths that scoping gives it, and all faults found on the way. -/
def locateProgram (statements : List Stmt) : List Stmt × List Diagnostic :=
  let r := locateStatements statements .start
  (r.1, r.2.reports)

end Lox
