import Lox.Proofs.Grammar.Phrase

/-! Placed trees: every name has the depth that the scopes around it give it. -/
namespace Lox

/-- The names that may be read at some place of a program, scope by scope from the inside. At top
level no scope is open. -/
abbrev Visible := List (List String)

namespace Visible

def distance? (vis : Visible) (name : String) : Option Nat := vis.findIdx? (name ∈ ·)

def depth (vis : Visible) (name : String) : Depth :=
  match vis.distance? name with
  | some n => .hops n
  | none => .global

/-- The innermost scope, if there is one, gets a name. -/
def declare (vis : Visible) (name : String) : Visible :=
  match vis with
  | [] => []
  | names :: outer => (name :: names) :: outer

/-- The innermost scope, if there is one, lacks the name. -/
def Takes (vis : Visible) (name : String) : Prop := ∀ names ∈ vis.head?, name ∉ names

@[simp] theorem distance?_nil (name : String) : distance? [] name = none := rfl

theorem distance?_cons (names : List String) (vis : Visible) (name : String) :
    distance? (names :: vis) name =
      if name ∈ names then some 0 else (distance? vis name).map (· + 1) := by
  simp [distance?, List.findIdx?_cons]

theorem distance?_declare_self {vis : Visible} (h : vis ≠ []) (name : String) :
    (vis.declare name).distance? name = some 0 := by
  cases vis with
  | nil => exact absurd rfl h
  | cons names vis => simp [declare, distance?_cons]

theorem distance?_declare_ne (vis : Visible) {name other : String} (h : other ≠ name) :
    (vis.declare name).distance? other = vis.distance? other := by
  cases vis with
  | nil => rfl
  | cons names vis => simp [declare, distance?_cons, h]

theorem depth_of_distance {vis : Visible} {name : String} {n : Nat}
    (h : vis.distance? name = some n) : vis.depth name = .hops n := by
  rw [depth, h]

theorem depth_of_none {vis : Visible} {name : String} (h : vis.distance? name = none) :
    vis.depth name = .global := by
  rw [depth, h]

end Visible

/-- The occurrence has the depth of its name, and `this` is in scope. -/
def Occurrence.Placed (vis : Visible) (o : Occurrence) : Prop :=
  o.depth = vis.depth o.name ∧ (o.name = "this" → (vis.distance? o.name).isSome)

mutual
def Expr.Placed (vis : Visible) : Expr → Prop
  | .literal _ _ => True
  | .group inner _ => inner.Placed vis
  | .unary _ right _ => right.Placed vis
  | .binary left _ right _ => left.Placed vis ∧ right.Placed vis
  | .read o _ => o.Placed vis
  | .this o _ => o.Placed vis
  | .assign target value _ => target.Placed vis ∧ value.Placed vis
  | .get object _ _ => object.Placed vis
  | .set object _ value _ => object.Placed vis ∧ value.Placed vis
  | .call callee arguments _ => callee.Placed vis ∧ argumentsPlaced vis arguments

def argumentsPlaced (vis : Visible) : List Expr → Prop
  | [] => True
  | e :: rest => e.Placed vis ∧ argumentsPlaced vis rest
end

def optionalPlaced (vis : Visible) : Option Expr → Prop
  | none => True
  | some e => e.Placed vis

/-- The initializer does not see the name. -/
def VarDecl.Placed (vis : Visible) (decl : VarDecl) : Prop :=
  vis.Takes decl.name ∧ optionalPlaced vis decl.initializer

namespace ForInit

/-- The names that the other parts of a loop see: a declaration has a scope of its own. -/
def extend (vis : Visible) : ForInit → Visible
  | declare decl => Visible.declare ([] :: vis) decl.name
  | _ => vis

def Placed (vis : Visible) : ForInit → Prop
  | nothing => True
  | declare decl => decl.Placed ([] :: vis)
  | evaluate e => e.Placed vis

end ForInit

/-- The names that the statements behind this one see. -/
def Stmt.extend (vis : Visible) : Stmt → Visible
  | var decl => vis.declare decl.name
  | function decl => vis.declare decl.name
  | classDecl name _ _ => vis.declare name
  | _ => vis

@[simp] theorem Stmt.extend_nil (s : Stmt) : s.extend [] = [] := by
  cases s <;> rfl

theorem Stmt.extend_of_not_declaration {s : Stmt} (h : s.isDeclaration = false) (vis : Visible) :
    s.extend vis = vis := by
  cases s with
  | var | function | classDecl => cases h
  | _ => rfl

open Grammar (Context)

mutual
/-- Beside the depths of names, no statement leaves a loop or a function that is not around it,
and no scope is given a name twice. -/
def Stmt.Placed (ctx : Context) (vis : Visible) : Stmt → Prop
  | .expression e _ => e.Placed vis
  | .print e _ => e.Placed vis
  | .var decl => decl.Placed vis
  | .function decl => vis.Takes decl.name ∧ functionPlaced ctx (vis.declare decl.name) decl
  | .classDecl name methods _ =>
    vis.Takes name ∧ methodsPlaced ctx.enterClass (["this"] :: vis.declare name) methods
  | .block statements _ => statementsPlaced ctx ([] :: vis) statements
  | .ifThen condition thenBranch _ =>
    condition.Placed vis ∧ thenBranch.isDeclaration = false ∧ thenBranch.Placed ctx vis
  | .ifElse condition thenBranch elseBranch _ =>
    condition.Placed vis ∧
      (thenBranch.isDeclaration = false ∧ thenBranch.Placed ctx vis) ∧
        elseBranch.isDeclaration = false ∧ elseBranch.Placed ctx vis
  | .whileLoop condition body _ =>
    condition.Placed vis ∧ body.isDeclaration = false ∧ body.Placed ctx.enterLoop vis
  | .forLoop init condition increment body _ =>
    (init.Placed vis ∧ optionalPlaced (init.extend vis) condition ∧
        optionalPlaced (init.extend vis) increment) ∧
      body.isDeclaration = false ∧ body.Placed ctx.enterLoop (init.extend vis)
  | .loopExit _ _ => ctx.inLoop
  | .returns value _ => ctx.inFunction ∧ optionalPlaced vis value

def statementsPlaced (ctx : Context) (vis : Visible) : List Stmt → Prop
  | [] => True
  | s :: rest => s.Placed ctx vis ∧ statementsPlaced ctx (s.extend vis) rest

/-- The body of a function shares the scope of the parameters. -/
def functionPlaced (ctx : Context) (vis : Visible) : FunDecl Stmt → Prop
  | ⟨_, params, body, _, _⟩ =>
    params.Nodup ∧ statementsPlaced ctx.enterFunction (params :: vis) body

def methodsPlaced (ctx : Context) (vis : Visible) : List (FunDecl Stmt) → Prop
  | [] => True
  | d :: rest => functionPlaced ctx vis d ∧ methodsPlaced ctx vis rest
end

end Lox
