import Lox.Tree

/-! Trees in parenthesised form, operator first. -/
namespace Lox

/-- A form: its parts, separated by blanks, in parentheses. -/
def form (parts : List String) : String := "(" ++ " ".intercalate parts ++ ")"

def UnaryOp.symbol : UnaryOp → String
  | not => "!"
  | negate => "-"

def StrictOp.symbol : StrictOp → String
  | equal => "=="
  | notEqual => "!="
  | less => "<"
  | lessEqual => "<="
  | greater => ">"
  | greaterEqual => ">="
  | add => "+"
  | subtract => "-"
  | multiply => "*"
  | divide => "/"

def BinaryOp.symbol : BinaryOp → String
  | or => "or"
  | and => "and"
  | strict op => op.symbol

/-- A string literal is shown without quotes. -/
def Literal.text : Literal → String
  | .nil => "nil"
  | .bool b => if b then "true" else "false"
  | .number x => Number.inTree.write x
  | .string s => s

mutual
def Expr.text : Expr → String
  | .literal value _ => value.text
  | .group inner _ => form ["group", inner.text]
  | .unary op right _ => form [op.symbol, right.text]
  | .binary left op right _ => form [op.symbol, left.text, right.text]
  | .read occurrence _ => occurrence.name
  | .this _ _ => "this"
  | .assign target value _ => form ["=", target.name, value.text]
  | .get object name _ => form [".", object.text, name]
  | .set object name value _ => form ["=", form [".", object.text, name], value.text]
  | .call callee arguments _ => form ("call" :: callee.text :: argumentTexts arguments)

def argumentTexts : List Expr → List String
  | [] => []
  | e :: rest => e.text :: argumentTexts rest
end

def VarDecl.text (d : VarDecl) : String :=
  match d.initializer with
  | some e => form ["var", d.name, e.text]
  | none => form ["var", d.name]

/-- An absent clause of a `for`. -/
def absentClause : String := "_"

def ForInit.text : ForInit → String
  | nothing => absentClause
  | declare decl => decl.text
  | evaluate expr => expr.text

private def clauseText : Option Expr → String
  | none => absentClause
  | some e => e.text

mutual
def Stmt.text : Stmt → String
  | .expression expr _ => form [";", expr.text]
  | .print expr _ => form ["print", expr.text]
  | .var decl => decl.text
  | .function decl => functionText decl
  | .classDecl name methods _ => form ("class" :: name :: functionTexts methods)
  | .block statements _ => form ("block" :: statementTexts statements)
  | .ifThen condition thenBranch _ => form ["if", condition.text, thenBranch.text]
  | .ifElse condition thenBranch elseBranch _ =>
    form ["if", condition.text, thenBranch.text, elseBranch.text]
  | .whileLoop condition body _ => form ["while", condition.text, body.text]
  | .forLoop init condition increment body _ =>
    form ["for", init.text, clauseText condition, clauseText increment, body.text]
  | .loopExit exit _ => form [exit.keyword]
  | .returns (some e) _ => form ["return", e.text]
  | .returns none _ => form ["return"]

def statementTexts : List Stmt → List String
  | [] => []
  | s :: rest => s.text :: statementTexts rest

def functionText : FunDecl Stmt → String
  | ⟨name, params, body, _, _⟩ => form ("fun" :: name :: form params :: statementTexts body)

def functionTexts : List (FunDecl Stmt) → List String
  | [] => []
  | d :: rest => functionText d :: functionTexts rest
end

/-- A program, one top-level statement a line. -/
def programText (statements : List Stmt) : String := "\n".intercalate (statementTexts statements)

end Lox
