import Lox.Tree

/-! Trees as JSON: one member named for the node, and an object with its fields. -/
namespace Lox

private def node (tag : String) (fields : List (String × Json)) : Json :=
  .tagged tag (.object fields)

private def atLine (n : Nat) : String × Json := ("line", .nat n)

def UnaryOp.tag : UnaryOp → String
  | not => "Not"
  | negate => "Negate"

def StrictOp.tag : StrictOp → String
  | equal => "Equal"
  | notEqual => "NotEqual"
  | less => "Less"
  | lessEqual => "LessEqual"
  | greater => "Greater"
  | greaterEqual => "GreaterEqual"
  | add => "Add"
  | subtract => "Subtract"
  | multiply => "Multiply"
  | divide => "Divide"

def BinaryOp.tag : BinaryOp → String
  | or => "Or"
  | and => "And"
  | strict op => op.tag

mutual
def Expr.toJson : Expr → Json
  | .literal value n => node "Literal" [("value", value.toJson), atLine n]
  | .group inner n => node "Group" [("inner", inner.toJson), atLine n]
  | .unary op right n => node "Unary" [("op", .text op.tag), ("right", right.toJson), atLine n]
  | .binary left op right n =>
    node "Binary" [("left", left.toJson), ("op", .text op.tag), ("right", right.toJson), atLine n]
  | .read occurrence n => node "Variable" [("ident", occurrence.toJson), atLine n]
  | .this occurrence n => node "This" [("ident", occurrence.toJson), atLine n]
  | .assign target value n =>
    node "Assign" [("target", .tagged "Variable" target.toJson), ("value", value.toJson), atLine n]
  | .get object name n => node "Get" [("object", object.toJson), ("name", .text name), atLine n]
  | .set object name value n =>
    node "Assign"
      [("target", node "Property" [("object", object.toJson), ("name", .text name)]),
       ("value", value.toJson), atLine n]
  | .call callee arguments n =>
    node "Call"
      [("callee", callee.toJson), ("arguments", .list (argumentsToJson arguments)), atLine n]

def argumentsToJson : List Expr → List Json
  | [] => []
  | e :: rest => e.toJson :: argumentsToJson rest
end

private def optional : Option Expr → Json
  | none => .null
  | some e => e.toJson

/-- The fields of a declaration; its tag depends on where it stands. -/
def VarDecl.toJson (d : VarDecl) : Json :=
  .object [("name", .text d.name), ("initializer", optional d.initializer), atLine d.line]

def ForInit.toJson : ForInit → Json
  | nothing => .null
  | declare decl => .tagged "Var" decl.toJson
  | evaluate expr => .tagged "Expr" expr.toJson

mutual
def Stmt.toJson : Stmt → Json
  | .expression expr n => node "Expression" [("expr", expr.toJson), atLine n]
  | .print expr n => node "Print" [("expr", expr.toJson), atLine n]
  | .var decl => .tagged "Var" decl.toJson
  | .function decl => .tagged "Function" (functionToJson decl)
  | .classDecl name methods n =>
    node "Class" [("name", .text name), ("methods", .list (functionsToJson methods)), atLine n]
  | .block statements n =>
    node "Block" [("statements", .list (statementsToJson statements)), atLine n]
  | .ifThen condition thenBranch n =>
    node "If"
      [("condition", condition.toJson), ("then_branch", thenBranch.toJson),
       ("else_branch", .null), atLine n]
  | .ifElse condition thenBranch elseBranch n =>
    node "If"
      [("condition", condition.toJson), ("then_branch", thenBranch.toJson),
       ("else_branch", elseBranch.toJson), atLine n]
  | .whileLoop condition body n =>
    node "While" [("condition", condition.toJson), ("body", body.toJson), atLine n]
  | .forLoop init condition increment body n =>
    node "For"
      [("initializer", init.toJson), ("condition", optional condition),
       ("increment", optional increment), ("body", body.toJson), atLine n]
  | .loopExit .toEnd n => node "Break" [atLine n]
  | .loopExit .toNext n => node "Continue" [atLine n]
  | .returns value n => node "Return" [("value", optional value), atLine n]

def statementsToJson : List Stmt → List Json
  | [] => []
  | s :: rest => s.toJson :: statementsToJson rest

def functionToJson : FunDecl Stmt → Json
  | ⟨name, params, body, n, _⟩ =>
    .object
      [("name", .text name), ("params", .list (params.map .text)),
       ("body", .list (statementsToJson body)), atLine n]

def functionsToJson : List (FunDecl Stmt) → List Json
  | [] => []
  | d :: rest => functionToJson d :: functionsToJson rest
end

def programToJson (statements : List Stmt) : Json := .list (statementsToJson statements)

end Lox
