import Lox.Proofs.Loops.Rewriting

/-! A local variable of a program under another name: its declaration and the occurrences that are
bound to it are renamed, and nothing else. -/
namespace Lox

/-! Renaming the occurrences of a name that are free in a piece of code. -/

def Occurrence.rename (x y : String) (o : Occurrence) : Occurrence :=
  if o.name = x then { o with name := y } else o

mutual
def Expr.rename (x y : String) : Expr → Expr
  | .literal value line => .literal value line
  | .group inner line => .group (inner.rename x y) line
  | .unary op right line => .unary op (right.rename x y) line
  | .binary left op right line => .binary (left.rename x y) op (right.rename x y) line
  | .read o line => .read (o.rename x y) line
  | .this o line => .this (o.rename x y) line
  | .assign target value line => .assign (target.rename x y) (value.rename x y) line
  | .get object name line => .get (object.rename x y) name line
  | .set object name value line => .set (object.rename x y) name (value.rename x y) line
  | .call callee arguments line => .call (callee.rename x y) (argumentsRename x y arguments) line

def argumentsRename (x y : String) : List Expr → List Expr
  | [] => []
  | e :: rest => e.rename x y :: argumentsRename x y rest
end

/-- The initializer does not see the variable. -/
def VarDecl.rename (x y : String) (decl : VarDecl) : VarDecl :=
  { decl with initializer := decl.initializer.map (Expr.rename x y) }

namespace ForInit

def rename (x y : String) : ForInit → ForInit
  | nothing => nothing
  | declare decl => declare (decl.rename x y)
  | evaluate e => evaluate (e.rename x y)

/-- The other parts of the loop see this name as that of the first clause. -/
def Declares (name : String) : ForInit → Prop
  | declare decl => decl.name = name
  | _ => False

instance (name : String) : DecidablePred (Declares name)
  | declare decl => inferInstanceAs (Decidable (decl.name = name))
  | nothing | evaluate _ => isFalse id

end ForInit

namespace Stmt

/-- The statements behind this one see this name as the one declared here. -/
def Declares (name : String) : Stmt → Prop
  | var decl => decl.name = name
  | function decl => decl.name = name
  | classDecl other _ _ => other = name
  | _ => False

instance (name : String) : DecidablePred (Declares name)
  | var decl => inferInstanceAs (Decidable (decl.name = name))
  | function decl => inferInstanceAs (Decidable (decl.name = name))
  | classDecl other _ _ => inferInstanceAs (Decidable (other = name))
  | expression _ _ | print _ _ | block _ _ | ifThen _ _ _ | ifElse _ _ _ _ | whileLoop _ _ _
  | forLoop _ _ _ _ _ | loopExit _ _ | returns _ _ => isFalse id

end Stmt

mutual
/-- The statement where `x`, as far as it is bound outside, is called `y`. -/
def Stmt.rename (x y : String) : Stmt → Stmt
  | .expression e line => .expression (e.rename x y) line
  | .print e line => .print (e.rename x y) line
  | .var decl => .var (decl.rename x y)
  | .function decl => .function (if decl.name = x then decl else functionRename x y decl)
  | .classDecl name methods line =>
    .classDecl name (if name = x then methods else methodsRename x y methods) line
  | .block statements line => .block (statementsRename x y statements) line
  | .ifThen condition thenBranch line =>
    .ifThen (condition.rename x y) (thenBranch.rename x y) line
  | .ifElse condition thenBranch elseBranch line =>
    .ifElse (condition.rename x y) (thenBranch.rename x y) (elseBranch.rename x y) line
  | .whileLoop condition body line => .whileLoop (condition.rename x y) (body.rename x y) line
  | .forLoop init condition increment body line =>
    if init.Declares x then .forLoop (init.rename x y) condition increment body line
    else .forLoop (init.rename x y) (condition.map (Expr.rename x y))
      (increment.map (Expr.rename x y)) (body.rename x y) line
  | .loopExit exit line => .loopExit exit line
  | .returns value line => .returns (value.map (Expr.rename x y)) line

def statementsRename (x y : String) : List Stmt → List Stmt
  | [] => []
  | s :: rest => s.rename x y :: if s.Declares x then rest else statementsRename x y rest

def functionRename (x y : String) : FunDecl Stmt → FunDecl Stmt
  | ⟨name, params, body, line, site⟩ =>
    ⟨name, params, if x ∈ params then body else statementsRename x y body, line, site⟩

def methodsRename (x y : String) : List (FunDecl Stmt) → List (FunDecl Stmt)
  | [] => []
  | d :: rest => functionRename x y d :: methodsRename x y rest
end

/-! Renaming one local variable. -/

mutual
/-- In the second statement one local variable `x` of the first is called `y`: one that a block, a
function or the first clause of a loop declares. -/
inductive Stmt.RenamesLocal (x y : String) : Stmt → Stmt → Prop
  | clause {initializer condition increment : Option Expr} {body : Stmt} {line line' : Nat} :
    Stmt.RenamesLocal x y
      (.forLoop (.declare ⟨x, initializer, line⟩) condition increment body line')
      (.forLoop (.declare ⟨y, initializer, line⟩) (condition.map (Expr.rename x y))
        (increment.map (Expr.rename x y)) (body.rename x y) line')
  | inFunction {decl decl' : FunDecl Stmt} : FunctionRenamesLocal x y decl decl' →
    Stmt.RenamesLocal x y (.function decl) (.function decl')
  | inClass {name : String} {methods methods' : List (FunDecl Stmt)} {line : Nat} :
    MethodsRenameLocal x y methods methods' →
      Stmt.RenamesLocal x y (.classDecl name methods line) (.classDecl name methods' line)
  | inBlock {statements statements' : List Stmt} {line : Nat} :
    BlockRenamesLocal x y statements statements' →
      Stmt.RenamesLocal x y (.block statements line) (.block statements' line)
  | inIf {condition : Expr} {thenBranch thenBranch' : Stmt} {line : Nat} :
    Stmt.RenamesLocal x y thenBranch thenBranch' →
      Stmt.RenamesLocal x y (.ifThen condition thenBranch line)
        (.ifThen condition thenBranch' line)
  | inThen {condition : Expr} {thenBranch thenBranch' elseBranch : Stmt} {line : Nat} :
    Stmt.RenamesLocal x y thenBranch thenBranch' →
      Stmt.RenamesLocal x y (.ifElse condition thenBranch elseBranch line)
        (.ifElse condition thenBranch' elseBranch line)
  | inElse {condition : Expr} {thenBranch elseBranch elseBranch' : Stmt} {line : Nat} :
    Stmt.RenamesLocal x y elseBranch elseBranch' →
      Stmt.RenamesLocal x y (.ifElse condition thenBranch elseBranch line)
        (.ifElse condition thenBranch elseBranch' line)
  | inWhile {condition : Expr} {body body' : Stmt} {line : Nat} :
    Stmt.RenamesLocal x y body body' →
      Stmt.RenamesLocal x y (.whileLoop condition body line) (.whileLoop condition body' line)
  | inFor {init : ForInit} {condition increment : Option Expr} {body body' : Stmt} {line : Nat} :
    Stmt.RenamesLocal x y body body' →
      Stmt.RenamesLocal x y (.forLoop init condition increment body line)
        (.forLoop init condition increment body' line)

/-- The same in the statements of a block or of a body. -/
inductive BlockRenamesLocal (x y : String) : List Stmt → List Stmt → Prop
  | here {initializer : Option Expr} {line : Nat} {rest : List Stmt} :
    BlockRenamesLocal x y (.var ⟨x, initializer, line⟩ :: rest)
      (.var ⟨y, initializer, line⟩ :: statementsRename x y rest)
  | first {s s' : Stmt} {rest : List Stmt} : Stmt.RenamesLocal x y s s' →
    BlockRenamesLocal x y (s :: rest) (s' :: rest)
  | later {s : Stmt} {rest rest' : List Stmt} : BlockRenamesLocal x y rest rest' →
    BlockRenamesLocal x y (s :: rest) (s :: rest')

inductive FunctionRenamesLocal (x y : String) : FunDecl Stmt → FunDecl Stmt → Prop
  | parameter {name : String} {before behind : List String} {body : List Stmt} {line site : Nat} :
    FunctionRenamesLocal x y ⟨name, before ++ x :: behind, body, line, site⟩
      ⟨name, before ++ y :: behind, statementsRename x y body, line, site⟩
  | inBody {name : String} {params : List String} {body body' : List Stmt} {line site : Nat} :
    BlockRenamesLocal x y body body' →
      FunctionRenamesLocal x y ⟨name, params, body, line, site⟩ ⟨name, params, body', line, site⟩

inductive MethodsRenameLocal (x y : String) : List (FunDecl Stmt) → List (FunDecl Stmt) → Prop
  | first {d d' : FunDecl Stmt} {rest : List (FunDecl Stmt)} : FunctionRenamesLocal x y d d' →
    MethodsRenameLocal x y (d :: rest) (d' :: rest)
  | later {d : FunDecl Stmt} {rest rest' : List (FunDecl Stmt)} :
    MethodsRenameLocal x y rest rest' → MethodsRenameLocal x y (d :: rest) (d :: rest')
end

/-- The same in a program, whose own variables are global. -/
inductive ProgramRenamesLocal (x y : String) : List Stmt → List Stmt → Prop
  | first {s s' : Stmt} {rest : List Stmt} : Stmt.RenamesLocal x y s s' →
    ProgramRenamesLocal x y (s :: rest) (s' :: rest)
  | later {s : Stmt} {rest rest' : List Stmt} : ProgramRenamesLocal x y rest rest' →
    ProgramRenamesLocal x y (s :: rest) (s :: rest')

/-! The names in a program. -/

def VarDecl.names (decl : VarDecl) : List String := decl.name :: optionalNames decl.initializer

def ForInit.names : ForInit → List String
  | nothing => []
  | declare decl => decl.names
  | evaluate e => e.names

mutual
/-- The names that a statement declares, reads or assigns, whatever is inside it. -/
def Stmt.names : Stmt → List String
  | .expression e _ | .print e _ => e.names
  | .var decl => decl.names
  | .function decl => decl.name :: functionNames decl
  | .classDecl name methods _ => name :: methodsNames methods
  | .block statements _ => statementsNames statements
  | .ifThen condition thenBranch _ => condition.names ++ thenBranch.names
  | .ifElse condition thenBranch elseBranch _ =>
    condition.names ++ (thenBranch.names ++ elseBranch.names)
  | .whileLoop condition body _ => condition.names ++ body.names
  | .forLoop init condition increment body _ =>
    init.names ++ (optionalNames condition ++ (optionalNames increment ++ body.names))
  | .loopExit _ _ => []
  | .returns value _ => optionalNames value

def statementsNames : List Stmt → List String
  | [] => []
  | s :: rest => s.names ++ statementsNames rest

def functionNames : FunDecl Stmt → List String
  | ⟨_, params, body, _, _⟩ => params ++ statementsNames body

def methodsNames : List (FunDecl Stmt) → List String
  | [] => []
  | d :: rest => functionNames d ++ methodsNames rest
end

/-! The depths of all occurrences in a program. -/

mutual
def Expr.depths : Expr → List Depth
  | .literal _ _ => []
  | .group inner _ => inner.depths
  | .unary _ right _ => right.depths
  | .binary left _ right _ => left.depths ++ right.depths
  | .read o _ | .this o _ => [o.depth]
  | .assign target value _ => target.depth :: value.depths
  | .get object _ _ => object.depths
  | .set object _ value _ => object.depths ++ value.depths
  | .call callee arguments _ => callee.depths ++ argumentDepths arguments

def argumentDepths : List Expr → List Depth
  | [] => []
  | e :: rest => e.depths ++ argumentDepths rest
end

def optionalDepths : Option Expr → List Depth
  | none => []
  | some e => e.depths

def ForInit.depths : ForInit → List Depth
  | nothing => []
  | declare decl => optionalDepths decl.initializer
  | evaluate e => e.depths

mutual
/-- In the order of the tree. -/
def Stmt.depths : Stmt → List Depth
  | .expression e _ | .print e _ => e.depths
  | .var decl => optionalDepths decl.initializer
  | .function decl => functionDepths decl
  | .classDecl _ methods _ => methodsDepths methods
  | .block statements _ => statementsDepths statements
  | .ifThen condition thenBranch _ => condition.depths ++ thenBranch.depths
  | .ifElse condition thenBranch elseBranch _ =>
    condition.depths ++ (thenBranch.depths ++ elseBranch.depths)
  | .whileLoop condition body _ => condition.depths ++ body.depths
  | .forLoop init condition increment body _ =>
    init.depths ++ (optionalDepths condition ++ (optionalDepths increment ++ body.depths))
  | .loopExit _ _ => []
  | .returns value _ => optionalDepths value

def statementsDepths : List Stmt → List Depth
  | [] => []
  | s :: rest => s.depths ++ statementsDepths rest

def functionDepths : FunDecl Stmt → List Depth
  | ⟨_, _, body, _, _⟩ => statementsDepths body

def methodsDepths : List (FunDecl Stmt) → List Depth
  | [] => []
  | d :: rest => functionDepths d ++ methodsDepths rest
end

end Lox
