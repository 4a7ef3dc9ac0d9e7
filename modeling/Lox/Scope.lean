import Lox.Tree

/-! Static scopes: the names of each, and the distance from a name's use to its scope. -/
namespace Lox

/-- The names declared in one scope, latest first, each with whether it may be read yet. -/
abbrev Scope := List (String × Bool)

namespace Scope

def declares (s : Scope) (name : String) : Bool := (s.lookup name).isSome

/-- A name that is declared and whose initializer is still being read. -/
def isPending (s : Scope) (name : String) : Bool := s.lookup name == some false

/-- The number of scopes between a use of `name` and the innermost scope that declares it. -/
def distance? (name : String) : List Scope → Option Nat
  | [] => none
  | s :: outer => if s.declares name then some 0 else (distance? name outer).map (· + 1)

end Scope

/-- The state of a walk: the open scopes, innermost first, and the faults found so far. At top
level no scope is open. -/
structure Scoping where
  scopes : List Scope
  reports : List Diagnostic

namespace Scoping

def start : Scoping := ⟨[], []⟩

def report (s : Scoping) (d : Diagnostic) : Scoping := { s with reports := s.reports ++ [d] }

def enter (s : Scoping) (scope : Scope) : Scoping := { s with scopes := scope :: s.scopes }

def leave (s : Scoping) : Scoping := { s with scopes := s.scopes.tail }

/-- Records a name in the innermost scope; top level keeps no record. -/
def record (s : Scoping) (name : String) (ready : Bool) : Scoping :=
  match s.scopes with
  | [] => s
  | scope :: outer => { s with scopes := ((name, ready) :: scope) :: outer }

/-- Whether the innermost scope has the name already. -/
def isTaken (s : Scoping) (name : String) : Bool :=
  match s.scopes with
  | [] => false
  | scope :: _ => scope.declares name

def redeclared (s : Scoping) (name : String) (line : Nat) : Scoping :=
  s.report ⟨line, .scope (.redeclared name)⟩

end Scoping
end Lox
