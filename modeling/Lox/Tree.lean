import Lox.Token
import Lox.Fault

/-! Syntax trees. Every node has the line of its first token. -/
namespace Lox

inductive UnaryOp where
  | not | negate
  deriving DecidableEq, Repr

/-- Operators that evaluate both operands. -/
inductive StrictOp where
  | equal | notEqual | less | lessEqual | greater | greaterEqual
  | add | subtract | multiply | divide
  deriving DecidableEq, Repr

/-- The logical operators evaluate their right operand only if the left one leaves it open. -/
inductive BinaryOp where
  | or | and
  | strict (op : StrictOp)
  deriving DecidableEq, Repr

inductive Expr where
  | literal (value : Literal) (line : Nat)
  | group (inner : Expr) (line : Nat)
  | unary (op : UnaryOp) (right : Expr) (line : Nat)
  | binary (left : Expr) (op : BinaryOp) (right : Expr) (line : Nat)
  | read (occurrence : Occurrence) (line : Nat)
  | this (occurrence : Occurrence) (line : Nat)
  | assign (target : Occurrence) (value : Expr) (line : Nat)
  | get (object : Expr) (name : String) (line : Nat)
  | set (object : Expr) (name : String) (value : Expr) (line : Nat)
  | call (callee : Expr) (arguments : List Expr) (line : Nat)
  deriving Repr

def Expr.line : Expr → Nat
  | literal _ line | group _ line | unary _ _ line | binary _ _ _ line | read _ line
  | this _ line | assign _ _ line | get _ _ line | set _ _ _ line | call _ _ line => line

structure VarDecl where
  name : String
  initializer : Option Expr
  line : Nat
  deriving Repr

/-- A function or method whose body is made of statements `σ`. Its site tells it from the other
declarations of a tree, where they have been told apart. -/
structure FunDecl (σ : Type) where
  name : String
  params : List String
  body : List σ
  line : Nat
  site : Nat
  deriving Repr

inductive ForInit where
  | nothing
  | declare (decl : VarDecl)
  | evaluate (expr : Expr)
  deriving Repr

inductive Stmt where
  | expression (expr : Expr) (line : Nat)
  | print (expr : Expr) (line : Nat)
  | var (decl : VarDecl)
  | function (decl : FunDecl Stmt)
  | classDecl (name : String) (methods : List (FunDecl Stmt)) (line : Nat)
  | block (statements : List Stmt) (line : Nat)
  | ifThen (condition : Expr) (thenBranch : Stmt) (line : Nat)
  | ifElse (condition : Expr) (thenBranch elseBranch : Stmt) (line : Nat)
  | whileLoop (condition : Expr) (body : Stmt) (line : Nat)
  | forLoop (init : ForInit) (condition increment : Option Expr) (body : Stmt) (line : Nat)
  | loopExit (exit : LoopExit) (line : Nat)
  | returns (value : Option Expr) (line : Nat)

def Stmt.line : Stmt → Nat
  | var decl => decl.line
  | function decl => decl.line
  | expression _ line | print _ line | classDecl _ _ line | block _ line | ifThen _ _ line
  | ifElse _ _ _ line | whileLoop _ _ line | forLoop _ _ _ _ line | loopExit _ line
  | returns _ line => line

end Lox
