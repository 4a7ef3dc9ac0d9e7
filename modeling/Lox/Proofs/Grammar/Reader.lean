import Lox.Proofs.Grammar.Reading

/-! The grammar inside any monad that can look at tokens: its readings can be watched closely, and what
holds of the single looks and of their compositions holds of every reading. -/
namespace Lox

/-- A fault that is not about the length of a list. -/
def GrammarFault.IsFatal (f : GrammarFault) : Prop := ∀ what, f ≠ .tooMany what

namespace Grammar

/-- The rules that the others are made of. None of them reports a fault and reads on. -/
inductive Look : {α : Type} → Rule α → Prop where
  | accept? (kind : Kind) : Look (Grammar.accept? kind)
  | acceptSome? {α : Type} (f : Kind → Option α) : Look (Grammar.acceptSome? f)
  | sees (kind : Kind) : Look (Grammar.sees kind)
  | atEnd : Look Grammar.atEnd
  | fault {α : Type} (line : Nat) {f : GrammarFault} (h : f.IsFatal) :
    Look (Grammar.fault line f : Rule α)
  | faultHere {α : Type} {f : GrammarFault} (h : f.IsFatal) :
    Look (Grammar.faultHere f : Rule α)

/-- What reading needs of the monad it runs in. -/
structure Reader (M : Type → Type) where
  fuelSpent {α : Type} : M α
  look {α : Type} (r : Rule α) (h : Look r) : M α
  /-- Takes the comma behind so many entries of a list, if there is one. -/
  separator (what : Capped) (entries : Nat) : M Bool

namespace Reader

section
variable {M : Type → Type} [Monad M] (p : Reader M)

def accept? (kind : Kind) : M (Option Token) := p.look _ (.accept? kind)

def acceptSome? {α : Type} (f : Kind → Option α) : M (Option (α × Token)) :=
  p.look _ (.acceptSome? f)

def sees (kind : Kind) : M Bool := p.look _ (.sees kind)

def atEnd : M Bool := p.look _ .atEnd

def expect (kind : Kind) (what : Expected) : M Token := do
  match ← p.accept? kind with
  | some t => pure t
  | none => p.look _ (.faultHere (f := .expected what) nofun)

end

mutual
def expression {M : Type → Type} [Monad M] (p : Reader M) : Nat → Context → M Expr
  | 0, _ => p.fuelSpent
  | fuel + 1, ctx => do
    let target ← p.operators fuel ctx tiers
    match ← p.accept? .equal with
    | none => pure target
    | some sign =>
      let value ← p.expression fuel ctx
      match target with
      | .read occurrence line => pure (.assign occurrence value line)
      | .get object name line => pure (.set object name value line)
      | _ => p.look _ (.fault sign.line (f := .invalidTarget) nofun)

def operators {M : Type → Type} [Monad M] (p : Reader M) : Nat → Context → List Tier → M Expr
  | 0, _, _ => p.fuelSpent
  | fuel + 1, ctx, [] => p.unary fuel ctx
  | fuel + 1, ctx, tier :: tighter => do
    let left ← p.operators fuel ctx tighter
    p.operatorsAfter fuel ctx tier tighter left

def operatorsAfter {M : Type → Type} [Monad M] (p : Reader M) :
    Nat → Context → Tier → List Tier → Expr → M Expr
  | 0, _, _, _, _ => p.fuelSpent
  | fuel + 1, ctx, tier, tighter, left => do
    match ← p.acceptSome? tier with
    | none => pure left
    | some (op, _) =>
      let right ← p.operators fuel ctx tighter
      p.operatorsAfter fuel ctx tier tighter (.binary left op right left.line)

def unary {M : Type → Type} [Monad M] (p : Reader M) : Nat → Context → M Expr
  | 0, _ => p.fuelSpent
  | fuel + 1, ctx => do
    match ← p.acceptSome? unaryTier with
    | some (op, sign) =>
      let right ← p.unary fuel ctx
      pure (.unary op right sign.line)
    | none =>
      let callee ← p.primary fuel ctx
      p.callsAfter fuel ctx callee

def callsAfter {M : Type → Type} [Monad M] (p : Reader M) : Nat → Context → Expr → M Expr
  | 0, _, _ => p.fuelSpent
  | fuel + 1, ctx, callee => do
    match ← p.accept? .leftParen with
    | some _ =>
      let arguments ← if ← p.sees .rightParen then pure [] else p.argumentList fuel ctx 0
      let _ ← p.expect .rightParen .argumentsEnd
      p.callsAfter fuel ctx (.call callee arguments callee.line)
    | none =>
      match ← p.accept? .dot with
      | some _ =>
        let name ← p.expect .identifier .propertyName
        p.callsAfter fuel ctx (.get callee name.lexeme callee.line)
      | none => pure callee

/-- The arguments behind the first `taken` ones. -/
def argumentList {M : Type → Type} [Monad M] (p : Reader M) :
    Nat → Context → Nat → M (List Expr)
  | 0, _, _ => p.fuelSpent
  | fuel + 1, ctx, taken => do
    let argument ← p.expression fuel ctx
    if ← p.separator .arguments (taken + 1) then
      let more ← p.argumentList fuel ctx (taken + 1)
      pure (argument :: more)
    else pure [argument]

def primary {M : Type → Type} [Monad M] (p : Reader M) : Nat → Context → M Expr
  | 0, _ => p.fuelSpent
  | fuel + 1, ctx => do
    match ← p.acceptSome? literalKind? with
    | some (_, t) => pure (.literal t.literal t.line)
    | none =>
      match ← p.accept? .identifier with
      | some t => pure (.read ⟨t.lexeme, .global⟩ t.line)
      | none =>
        match ← p.accept? .kwThis with
        | some t =>
          if ctx.inClass then pure (.this ⟨"this", .global⟩ t.line)
          else p.look _ (.fault t.line (f := .thisOutsideClass) nofun)
        | none =>
          match ← p.accept? .leftParen with
          | some t =>
            let inner ← p.expression fuel ctx
            let _ ← p.expect .rightParen .groupEnd
            pure (.group inner t.line)
          | none =>
            if ← p.atEnd then p.look _ (.faultHere (f := .endOfInput) nofun)
            else p.look _ (.faultHere (f := .expected .expression) nofun)
end

section
variable {M : Type → Type} [Monad M] (p : Reader M)

def unlessSees {α : Type} (kind : Kind) (x : M α) : M (Option α) := do
  if ← p.sees kind then pure none
  else
    let a ← x
    pure (some a)

/-- An expression with the token that closes it. -/
def closedExpression {α : Type} (fuel : Nat) (ctx : Context) (kind : Kind) (what : Expected)
    (f : Expr → α) : M α := do
  let value ← p.expression fuel ctx
  let _ ← p.expect kind what
  pure (f value)

def varDeclaration (fuel : Nat) (ctx : Context) (line : Nat) : M VarDecl := do
  let name ← p.expect .identifier .variableName
  let initializer ← match ← p.accept? .equal with
    | none => pure none
    | some _ =>
      let value ← p.expression fuel ctx
      pure (some value)
  let _ ← p.expect .semicolon .variableEnd
  pure ⟨name.lexeme, initializer, line⟩

/-- The parameters behind the first `taken` ones. -/
def parameterList : Nat → Nat → M (List String)
  | 0, _ => p.fuelSpent
  | fuel + 1, taken => do
    let param ← p.expect .identifier .parameterName
    if ← p.separator .parameters (taken + 1) then
      let more ← parameterList fuel (taken + 1)
      pure (param.lexeme :: more)
    else pure [param.lexeme]

def forInit (fuel : Nat) (ctx : Context) : M ForInit := do
  match ← p.accept? .semicolon with
  | some _ => pure .nothing
  | none =>
    match ← p.accept? .kwVar with
    | some t =>
      let decl ← p.varDeclaration fuel ctx t.line
      pure (.declare decl)
    | none => p.closedExpression fuel ctx .semicolon .forInitializerEnd .evaluate

def loopExit (ctx : Context) (exit : LoopExit) (close : Expected) (line : Nat) : M Stmt := do
  if !ctx.inLoop then p.look _ (.fault line (f := .outsideLoop exit) nofun)
  else
    let _ ← p.expect .semicolon close
    pure (.loopExit exit line)

def returnStatement (fuel : Nat) (ctx : Context) (line : Nat) : M Stmt := do
  if !ctx.inFunction then p.look _ (.fault line (f := .topLevelReturn) nofun)
  else
    let value ← p.unlessSees .semicolon (p.expression fuel ctx)
    let _ ← p.expect .semicolon .returnEnd
    pure (.returns value line)

end

mutual
def declaration {M : Type → Type} [Monad M] (p : Reader M) : Nat → Context → M Stmt
  | 0, _ => p.fuelSpent
  | fuel + 1, ctx => do
    match ← p.accept? .kwClass with
    | some t => p.classDeclaration fuel ctx.enterClass t.line
    | none =>
      match ← p.accept? .kwFun with
      | some t =>
        let decl ← p.function fuel ctx (some t.line)
        pure (.function decl)
      | none =>
        match ← p.accept? .kwVar with
        | some t =>
          let decl ← p.varDeclaration fuel ctx t.line
          pure (.var decl)
        | none => p.statement fuel ctx

def classDeclaration {M : Type → Type} [Monad M] (p : Reader M) : Nat → Context → Nat → M Stmt
  | 0, _, _ => p.fuelSpent
  | fuel + 1, ctx, line => do
    let name ← p.expect .identifier .className
    let _ ← p.expect .leftBrace .classBodyStart
    let methods ← p.methodList fuel ctx
    let _ ← p.expect .rightBrace .classBodyEnd
    pure (.classDecl name.lexeme methods line)

def methodList {M : Type → Type} [Monad M] (p : Reader M) :
    Nat → Context → M (List (FunDecl Stmt))
  | 0, _ => p.fuelSpent
  | fuel + 1, ctx => do
    if ← p.sees .rightBrace then pure []
    else if ← p.atEnd then p.look _ (.faultHere (f := .expected .classBodyEnd) nofun)
    else
      let method ← match ← p.accept? .kwFun with
        | some t => p.function fuel ctx (some t.line)
        | none =>
          if ← p.sees .identifier then p.function fuel ctx none
          else p.look _ (.faultHere (f := .expected .method) nofun)
      let more ← p.methodList fuel ctx
      pure (method :: more)

def function {M : Type → Type} [Monad M] (p : Reader M) :
    Nat → Context → Option Nat → M (FunDecl Stmt)
  | 0, _, _ => p.fuelSpent
  | fuel + 1, ctx, start => do
    let name ← p.expect .identifier .functionName
    let _ ← p.expect .leftParen .parametersStart
    let params ← if ← p.sees .rightParen then pure [] else p.parameterList fuel 0
    let _ ← p.expect .rightParen .parametersEnd
    let _ ← p.expect .leftBrace .functionBodyStart
    let body ← p.statementList fuel ctx.enterFunction
    let _ ← p.expect .rightBrace .blockEnd
    pure ⟨name.lexeme, params, body, start.getD name.line, 0⟩

def statementList {M : Type → Type} [Monad M] (p : Reader M) : Nat → Context → M (List Stmt)
  | 0, _ => p.fuelSpent
  | fuel + 1, ctx => do
    if ← p.sees .rightBrace then pure []
    else if ← p.atEnd then pure []
    else
      let s ← p.declaration fuel ctx
      let more ← p.statementList fuel ctx
      pure (s :: more)

def statement {M : Type → Type} [Monad M] (p : Reader M) : Nat → Context → M Stmt
  | 0, _ => p.fuelSpent
  | fuel + 1, ctx => do
    match ← p.acceptSome? opening? with
    | none =>
      p.closedExpression fuel ctx .semicolon .expressionEnd fun value =>
        .expression value value.line
    | some (.forLoop, t) => p.forStatement fuel ctx.enterLoop t.line
    | some (.ifElse, t) => p.ifStatement fuel ctx t.line
    | some (.whileLoop, t) => p.whileStatement fuel ctx.enterLoop t.line
    | some (.returns, t) => p.returnStatement fuel ctx t.line
    | some (.exit exit close, t) => p.loopExit ctx exit close t.line
    | some (.block, t) =>
      let statements ← p.statementList fuel ctx
      let _ ← p.expect .rightBrace .blockEnd
      pure (.block statements t.line)
    | some (.print, t) =>
      p.closedExpression fuel ctx .semicolon .printEnd fun value => .print value t.line

def forStatement {M : Type → Type} [Monad M] (p : Reader M) : Nat → Context → Nat → M Stmt
  | 0, _, _ => p.fuelSpent
  | fuel + 1, ctx, line => do
    let _ ← p.expect .leftParen .forStart
    let init ← p.forInit fuel ctx
    let condition ← p.unlessSees .semicolon (p.expression fuel ctx)
    let _ ← p.expect .semicolon .forConditionEnd
    let increment ← p.unlessSees .rightParen (p.expression fuel ctx)
    let _ ← p.expect .rightParen .forEnd
    let body ← p.statement fuel ctx
    pure (.forLoop init condition increment body line)

def whileStatement {M : Type → Type} [Monad M] (p : Reader M) : Nat → Context → Nat → M Stmt
  | 0, _, _ => p.fuelSpent
  | fuel + 1, ctx, line => do
    let _ ← p.expect .leftParen .whileStart
    let condition ← p.expression fuel ctx
    let _ ← p.expect .rightParen .whileEnd
    let body ← p.statement fuel ctx
    pure (.whileLoop condition body line)

def ifStatement {M : Type → Type} [Monad M] (p : Reader M) : Nat → Context → Nat → M Stmt
  | 0, _, _ => p.fuelSpent
  | fuel + 1, ctx, line => do
    let _ ← p.expect .leftParen .ifStart
    let condition ← p.expression fuel ctx
    let _ ← p.expect .rightParen .ifEnd
    let thenBranch ← p.statement fuel ctx
    match ← p.accept? .kwElse with
    | none => pure (.ifThen condition thenBranch line)
    | some _ =>
      let elseBranch ← p.statement fuel ctx
      pure (.ifElse condition thenBranch elseBranch line)
end

end Reader
end Grammar
end Lox
