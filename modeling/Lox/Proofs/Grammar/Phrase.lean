import Lox.Grammar.Statement

/-! Phrases: the trees that the grammar has, and the tokens that spell them. -/
namespace Lox

/-- What the grammar sees of a token: its kind, the name in an identifier and the constant in a
literal. -/
structure Symbol where
  kind : Kind
  name : String
  constant : Literal

def Literal.kind : Literal → Kind
  | nil => .kwNil
  | bool true => .kwTrue
  | bool false => .kwFalse
  | number _ => .number
  | string _ => .string

namespace Symbol

def mark (kind : Kind) : Symbol := ⟨kind, "", .nil⟩

def identifier (name : String) : Symbol := ⟨.identifier, name, .nil⟩

def literal (value : Literal) : Symbol := ⟨value.kind, "", value⟩

end Symbol

namespace Token

def isLiteral (t : Token) : Bool := (Grammar.literalKind? t.kind).isSome

def symbol (t : Token) : Symbol :=
  ⟨t.kind, if t.kind = .identifier then t.lexeme else "", if t.isLiteral then t.literal else .nil⟩

/-- A literal token carries a constant of its own kind. -/
def Sincere (t : Token) : Prop := t.isLiteral → t.literal.kind = t.kind

instance (t : Token) : Decidable t.Sincere :=
  inferInstanceAs (Decidable (t.isLiteral = true → t.literal.kind = t.kind))

end Token

def UnaryOp.kind : UnaryOp → Kind
  | not => .bang
  | negate => .minus

def BinaryOp.kind : BinaryOp → Kind
  | or => .kwOr
  | and => .kwAnd
  | strict .equal => .equalEqual
  | strict .notEqual => .bangEqual
  | strict .less => .less
  | strict .lessEqual => .lessEqual
  | strict .greater => .greater
  | strict .greaterEqual => .greaterEqual
  | strict .add => .plus
  | strict .subtract => .minus
  | strict .multiply => .star
  | strict .divide => .slash

def LoopExit.kind : LoopExit → Kind
  | toEnd => .kwBreak
  | toNext => .kwContinue

/-! Spelling. -/

mutual
def Expr.symbols : Expr → List Symbol
  | .literal value _ => [.literal value]
  | .group inner _ => .mark .leftParen :: (inner.symbols ++ [.mark .rightParen])
  | .unary op right _ => .mark op.kind :: right.symbols
  | .binary left op right _ => left.symbols ++ .mark op.kind :: right.symbols
  | .read o _ => [.identifier o.name]
  | .this _ _ => [.mark .kwThis]
  | .assign target value _ => .identifier target.name :: .mark .equal :: value.symbols
  | .get object name _ => object.symbols ++ [.mark .dot, .identifier name]
  | .set object name value _ =>
    object.symbols ++ .mark .dot :: .identifier name :: .mark .equal :: value.symbols
  | .call callee arguments _ =>
    callee.symbols ++ .mark .leftParen :: (argumentSymbols arguments ++ [.mark .rightParen])

def argumentSymbols : List Expr → List Symbol
  | [] => []
  | e :: rest => e.symbols ++ if rest.isEmpty then [] else .mark .comma :: argumentSymbols rest
end

/-- The tokens of something that may be left out. -/
def optionalSymbols : Option Expr → List Symbol
  | none => []
  | some e => e.symbols

def parameterSymbols (params : List String) : List Symbol :=
  (params.map Symbol.identifier).intersperse (.mark .comma)

/-- A variable declaration behind its keyword. -/
def VarDecl.symbols (decl : VarDecl) : List Symbol :=
  .identifier decl.name ::
    match decl.initializer with
    | none => [.mark .semicolon]
    | some e => .mark .equal :: (e.symbols ++ [.mark .semicolon])

def ForInit.symbols : ForInit → List Symbol
  | nothing => [.mark .semicolon]
  | declare decl => .mark .kwVar :: decl.symbols
  | evaluate e => e.symbols ++ [.mark .semicolon]

mutual
/-- A statement has as many spellings as there are ways to put or omit the `fun` in front of
methods. -/
def Stmt.SpelledAs : Stmt → List Symbol → Prop
  | .expression e _, w => w = e.symbols ++ [.mark .semicolon]
  | .print e _, w => w = .mark .kwPrint :: (e.symbols ++ [.mark .semicolon])
  | .var decl, w => w = .mark .kwVar :: decl.symbols
  | .function decl, w => ∃ v, functionSpelledAs decl v ∧ w = .mark .kwFun :: v
  | .classDecl name methods _, w =>
    ∃ v, methodsSpelledAs methods v ∧
      w = .mark .kwClass :: .identifier name :: .mark .leftBrace :: (v ++ [.mark .rightBrace])
  | .block statements _, w =>
    ∃ v, statementsSpelledAs statements v ∧ w = .mark .leftBrace :: (v ++ [.mark .rightBrace])
  | .ifThen condition thenBranch _, w =>
    ∃ v, thenBranch.SpelledAs v ∧
      w = .mark .kwIf :: .mark .leftParen :: (condition.symbols ++ .mark .rightParen :: v)
  | .ifElse condition thenBranch elseBranch _, w =>
    ∃ u v, thenBranch.SpelledAs u ∧ elseBranch.SpelledAs v ∧
      w = .mark .kwIf :: .mark .leftParen ::
        (condition.symbols ++ .mark .rightParen :: (u ++ .mark .kwElse :: v))
  | .whileLoop condition body _, w =>
    ∃ v, body.SpelledAs v ∧
      w = .mark .kwWhile :: .mark .leftParen :: (condition.symbols ++ .mark .rightParen :: v)
  | .forLoop init condition increment body _, w =>
    ∃ v, body.SpelledAs v ∧
      w = .mark .kwFor :: .mark .leftParen :: (init.symbols ++ (optionalSymbols condition ++
        .mark .semicolon :: (optionalSymbols increment ++ .mark .rightParen :: v)))
  | .loopExit exit _, w => w = [.mark exit.kind, .mark .semicolon]
  | .returns value _, w => w = .mark .kwReturn :: (optionalSymbols value ++ [.mark .semicolon])

def statementsSpelledAs : List Stmt → List Symbol → Prop
  | [], w => w = []
  | s :: rest, w => ∃ u v, s.SpelledAs u ∧ statementsSpelledAs rest v ∧ w = u ++ v

def functionSpelledAs : FunDecl Stmt → List Symbol → Prop
  | ⟨name, params, body, _, _⟩, w =>
    ∃ v, statementsSpelledAs body v ∧
      w = .identifier name :: .mark .leftParen :: (parameterSymbols params ++
        .mark .rightParen :: .mark .leftBrace :: (v ++ [.mark .rightBrace]))

def methodsSpelledAs : List (FunDecl Stmt) → List Symbol → Prop
  | [], w => w = []
  | d :: rest, w =>
    ∃ u v, functionSpelledAs d u ∧ methodsSpelledAs rest v ∧
      (w = u ++ v ∨ w = .mark .kwFun :: (u ++ v))
end

/-! The trees that the grammar has. -/

/-- How tightly an operator binds; assignments bind at level 0. -/
def BinaryOp.tightness : BinaryOp → Nat
  | or => 1
  | and => 2
  | strict .equal | strict .notEqual => 3
  | strict .less | strict .lessEqual | strict .greater | strict .greaterEqual => 4
  | strict .add | strict .subtract => 5
  | strict .multiply | strict .divide => 6

namespace Expr

/-- The level of the prefix operators. -/
def prefixLevel : Nat := 7

/-- The level of calls and of all that binds as tightly. -/
def callLevel : Nat := 8

def tightness : Expr → Nat
  | assign .. | set .. => 0
  | binary _ op _ _ => op.tightness
  | unary .. => prefixLevel
  | literal .. | group .. | read .. | this .. | get .. | call .. => callLevel

end Expr

mutual
/-- Operands need no parentheses where they stand, no name has a depth yet, and `this` stands
inside a class. -/
def Expr.Grammatical (inClass : Bool) : Expr → Prop
  | .literal _ _ => True
  | .group inner _ => inner.Grammatical inClass
  | .unary _ right _ => Expr.prefixLevel ≤ right.tightness ∧ right.Grammatical inClass
  | .binary left op right _ =>
    (op.tightness ≤ left.tightness ∧ left.Grammatical inClass) ∧
      op.tightness < right.tightness ∧ right.Grammatical inClass
  | .read o _ => o.depth = .global
  | .this o _ => o = ⟨"this", .global⟩ ∧ inClass
  | .assign target value _ => target.depth = .global ∧ value.Grammatical inClass
  | .get object _ _ => Expr.callLevel ≤ object.tightness ∧ object.Grammatical inClass
  | .set object _ value _ =>
    (Expr.callLevel ≤ object.tightness ∧ object.Grammatical inClass) ∧ value.Grammatical inClass
  | .call callee arguments _ =>
    (Expr.callLevel ≤ callee.tightness ∧ callee.Grammatical inClass) ∧
      arguments.length ≤ Capped.limit ∧ argumentsGrammatical inClass arguments

def argumentsGrammatical (inClass : Bool) : List Expr → Prop
  | [] => True
  | e :: rest => e.Grammatical inClass ∧ argumentsGrammatical inClass rest
end

def optionalGrammatical (inClass : Bool) : Option Expr → Prop
  | none => True
  | some e => e.Grammatical inClass

def ForInit.Grammatical (inClass : Bool) : ForInit → Prop
  | nothing => True
  | declare decl => optionalGrammatical inClass decl.initializer
  | evaluate e => e.Grammatical inClass

namespace Stmt

def isDeclaration : Stmt → Bool
  | var _ | function _ | classDecl .. => true
  | _ => false

/-- Whether an `else` behind the statement would belong to an `if` inside it. -/
def takesElse : Stmt → Bool
  | ifThen .. => true
  | ifElse _ _ elseBranch _ => elseBranch.takesElse
  | whileLoop _ body _ => body.takesElse
  | forLoop _ _ _ body _ => body.takesElse
  | _ => false

end Stmt

open Grammar (Context)

mutual
/-- The rules on what may stand where; `ctx` is what is around the statement. -/
def Stmt.Grammatical (ctx : Context) : Stmt → Prop
  | .expression e _ => e.Grammatical ctx.inClass
  | .print e _ => e.Grammatical ctx.inClass
  | .var decl => optionalGrammatical ctx.inClass decl.initializer
  | .function decl => functionGrammatical ctx decl
  | .classDecl _ methods _ => methodsGrammatical ctx.enterClass methods
  | .block statements _ => statementsGrammatical ctx statements
  | .ifThen condition thenBranch _ =>
    condition.Grammatical ctx.inClass ∧ thenBranch.isDeclaration = false ∧
      thenBranch.Grammatical ctx
  | .ifElse condition thenBranch elseBranch _ =>
    condition.Grammatical ctx.inClass ∧
      (thenBranch.isDeclaration = false ∧ thenBranch.takesElse = false ∧
        thenBranch.Grammatical ctx) ∧
      elseBranch.isDeclaration = false ∧ elseBranch.Grammatical ctx
  | .whileLoop condition body _ =>
    condition.Grammatical ctx.inClass ∧ body.isDeclaration = false ∧
      body.Grammatical ctx.enterLoop
  | .forLoop init condition increment body _ =>
    (init.Grammatical ctx.inClass ∧ optionalGrammatical ctx.inClass condition ∧
        optionalGrammatical ctx.inClass increment) ∧
      body.isDeclaration = false ∧ body.Grammatical ctx.enterLoop
  | .loopExit _ _ => ctx.inLoop
  | .returns value _ => ctx.inFunction ∧ optionalGrammatical ctx.inClass value

def statementsGrammatical (ctx : Context) : List Stmt → Prop
  | [] => True
  | s :: rest => s.Grammatical ctx ∧ statementsGrammatical ctx rest

/-- Reading tells no two declarations apart, so every site is still 0. -/
def functionGrammatical (ctx : Context) : FunDecl Stmt → Prop
  | ⟨_, params, body, _, site⟩ =>
    params.length ≤ Capped.limit ∧ statementsGrammatical ctx.enterFunction body ∧ site = 0

def methodsGrammatical (ctx : Context) : List (FunDecl Stmt) → Prop
  | [] => True
  | d :: rest => functionGrammatical ctx d ∧ methodsGrammatical ctx rest
end

/-! Trees without their lines. -/

mutual
def Expr.withoutLines : Expr → Expr
  | .literal value _ => .literal value 0
  | .group inner _ => .group inner.withoutLines 0
  | .unary op right _ => .unary op right.withoutLines 0
  | .binary left op right _ => .binary left.withoutLines op right.withoutLines 0
  | .read o _ => .read o 0
  | .this o _ => .this o 0
  | .assign target value _ => .assign target value.withoutLines 0
  | .get object name _ => .get object.withoutLines name 0
  | .set object name value _ => .set object.withoutLines name value.withoutLines 0
  | .call callee arguments _ => .call callee.withoutLines (argumentsWithoutLines arguments) 0

def argumentsWithoutLines : List Expr → List Expr
  | [] => []
  | e :: rest => e.withoutLines :: argumentsWithoutLines rest
end

/-- Equal but for the lines. -/
def Expr.Resembles (e e' : Expr) : Prop := e'.withoutLines = e.withoutLines

def VarDecl.withoutLines (decl : VarDecl) : VarDecl :=
  ⟨decl.name, decl.initializer.map Expr.withoutLines, 0⟩

def ForInit.withoutLines : ForInit → ForInit
  | nothing => nothing
  | declare decl => declare decl.withoutLines
  | evaluate e => evaluate e.withoutLines

mutual
def Stmt.withoutLines : Stmt → Stmt
  | .expression e _ => .expression e.withoutLines 0
  | .print e _ => .print e.withoutLines 0
  | .var decl => .var decl.withoutLines
  | .function decl => .function (functionWithoutLines decl)
  | .classDecl name methods _ => .classDecl name (methodsWithoutLines methods) 0
  | .block statements _ => .block (statementsWithoutLines statements) 0
  | .ifThen condition thenBranch _ => .ifThen condition.withoutLines thenBranch.withoutLines 0
  | .ifElse condition thenBranch elseBranch _ =>
    .ifElse condition.withoutLines thenBranch.withoutLines elseBranch.withoutLines 0
  | .whileLoop condition body _ => .whileLoop condition.withoutLines body.withoutLines 0
  | .forLoop init condition increment body _ =>
    .forLoop init.withoutLines (condition.map Expr.withoutLines)
      (increment.map Expr.withoutLines) body.withoutLines 0
  | .loopExit exit _ => .loopExit exit 0
  | .returns value _ => .returns (value.map Expr.withoutLines) 0

def statementsWithoutLines : List Stmt → List Stmt
  | [] => []
  | s :: rest => s.withoutLines :: statementsWithoutLines rest

def functionWithoutLines : FunDecl Stmt → FunDecl Stmt
  | ⟨name, params, body, _, site⟩ => ⟨name, params, statementsWithoutLines body, 0, site⟩

def methodsWithoutLines : List (FunDecl Stmt) → List (FunDecl Stmt)
  | [] => []
  | d :: rest => functionWithoutLines d :: methodsWithoutLines rest
end

/-- Equal but for the lines. -/
def Stmt.Resembles (s s' : Stmt) : Prop := s'.withoutLines = s.withoutLines

end Lox
