import Lox.Grammar.Expression

/-! The grammar of statements and declarations, and the reading of a whole program. -/
namespace Lox.Grammar

/-- Reads with `r` unless the next token is of the given kind. -/
def unlessSees {α : Type} (kind : Kind) (r : Rule α) : Rule (Option α) := do
  if ← sees kind then pure none
  else
    let a ← r
    pure (some a)

/-- A variable declaration behind its keyword, which is on `line`. -/
def varDeclaration (fuel : Nat) (ctx : Context) (line : Nat) : Rule VarDecl := do
  let name ← expect .identifier .variableName
  let initializer ← match ← accept? .equal with
    | none => pure none
    | some _ =>
      let value ← expression fuel ctx
      pure (some value)
  let _ ← expect .semicolon .variableEnd
  pure ⟨name.lexeme, initializer, line⟩

/-- The parameters behind the first `taken` ones. -/
def parameterList : Nat → Nat → Rule (List String)
  | 0, _ => fuelSpent
  | fuel + 1, taken => do
    if taken = Capped.limit then reportHere (.tooMany .parameters)
    let param ← expect .identifier .parameterName
    match ← accept? .comma with
    | none => pure [param.lexeme]
    | some _ =>
      let more ← parameterList fuel (taken + 1)
      pure (param.lexeme :: more)

/-- The first clause of a `for`, with the semicolon that ends it. -/
def forInit (fuel : Nat) (ctx : Context) : Rule ForInit := do
  match ← accept? .semicolon with
  | some _ => pure .nothing
  | none =>
    match ← accept? .kwVar with
    | some t =>
      let decl ← varDeclaration fuel ctx t.line
      pure (.declare decl)
    | none =>
      let value ← expression fuel ctx
      let _ ← expect .semicolon .forInitializerEnd
      pure (.evaluate value)

/-- `break` or `continue` behind its keyword. -/
def loopExit (ctx : Context) (exit : LoopExit) (close : Expected) (line : Nat) : Rule Stmt := do
  if !ctx.inLoop then fault line (.outsideLoop exit)
  else
    let _ ← expect .semicolon close
    pure (.loopExit exit line)

/-- `return` behind its keyword. -/
def returnStatement (fuel : Nat) (ctx : Context) (line : Nat) : Rule Stmt := do
  if !ctx.inFunction then fault line .topLevelReturn
  else
    let value ← unlessSees .semicolon (expression fuel ctx)
    let _ ← expect .semicolon .returnEnd
    pure (.returns value line)

def printStatement (fuel : Nat) (ctx : Context) (line : Nat) : Rule Stmt := do
  let value ← expression fuel ctx
  let _ ← expect .semicolon .printEnd
  pure (.print value line)

def expressionStatement (fuel : Nat) (ctx : Context) : Rule Stmt := do
  let value ← expression fuel ctx
  let _ ← expect .semicolon .expressionEnd
  pure (.expression value value.line)

/-- Keywords and the brace that start a statement. -/
inductive Opening where
  | forLoop | ifElse | whileLoop | returns | exit (exit : LoopExit) (close : Expected) | block
  | print

def opening? : Kind → Option Opening
  | .kwFor => some .forLoop
  | .kwIf => some .ifElse
  | .kwWhile => some .whileLoop
  | .kwReturn => some .returns
  | .kwBreak => some (.exit .toEnd .breakEnd)
  | .kwContinue => some (.exit .toNext .continueEnd)
  | .leftBrace => some .block
  | .kwPrint => some .print
  | _ => none

mutual
def declaration : Nat → Context → Rule Stmt
  | 0, _ => fuelSpent
  | fuel + 1, ctx => do
    match ← accept? .kwClass with
    | some t => classDeclaration fuel ctx.enterClass t.line
    | none =>
      match ← accept? .kwFun with
      | some t =>
        let decl ← function fuel ctx (some t.line)
        pure (.function decl)
      | none =>
        match ← accept? .kwVar with
        | some t =>
          let decl ← varDeclaration fuel ctx t.line
          pure (.var decl)
        | none => statement fuel ctx
termination_by structural fuel => fuel

/-- A class behind its keyword. -/
def classDeclaration : Nat → Context → Nat → Rule Stmt
  | 0, _, _ => fuelSpent
  | fuel + 1, ctx, line => do
    let name ← expect .identifier .className
    let _ ← expect .leftBrace .classBodyStart
    let methods ← methodList fuel ctx
    let _ ← expect .rightBrace .classBodyEnd
    pure (.classDecl name.lexeme methods line)
termination_by structural fuel => fuel

/-- The methods up to the brace that closes a class. -/
def methodList : Nat → Context → Rule (List (FunDecl Stmt))
  | 0, _ => fuelSpent
  | fuel + 1, ctx => do
    if ← sees .rightBrace then pure []
    else if ← atEnd then faultHere (.expected .classBodyEnd)
    else
      let method ← match ← accept? .kwFun with
        | some t => function fuel ctx (some t.line)
        | none =>
          if ← sees .identifier then function fuel ctx none else faultHere (.expected .method)
      let more ← methodList fuel ctx
      pure (method :: more)
termination_by structural fuel => fuel

/-- A function from its name on. Its line is that of the `fun` in front, or that of the name. -/
def function : Nat → Context → Option Nat → Rule (FunDecl Stmt)
  | 0, _, _ => fuelSpent
  | fuel + 1, ctx, start => do
    let name ← expect .identifier .functionName
    let _ ← expect .leftParen .parametersStart
    let params ← if ← sees .rightParen then pure [] else parameterList fuel 0
    let _ ← expect .rightParen .parametersEnd
    let _ ← expect .leftBrace .functionBodyStart
    let body ← statementList fuel ctx.enterFunction
    let _ ← expect .rightBrace .blockEnd
    pure ⟨name.lexeme, params, body, start.getD name.line, 0⟩
termination_by structural fuel => fuel

/-- The statements up to a closing brace or the end. -/
def statementList : Nat → Context → Rule (List Stmt)
  | 0, _ => fuelSpent
  | fuel + 1, ctx => do
    if ← sees .rightBrace then pure []
    else if ← atEnd then pure []
    else
      let s ← declaration fuel ctx
      let more ← statementList fuel ctx
      pure (s :: more)
termination_by structural fuel => fuel

def statement : Nat → Context → Rule Stmt
  | 0, _ => fuelSpent
  | fuel + 1, ctx => do
    match ← acceptSome? opening? with
    | none => expressionStatement fuel ctx
    | some (.forLoop, t) => forStatement fuel ctx.enterLoop t.line
    | some (.ifElse, t) => ifStatement fuel ctx t.line
    | some (.whileLoop, t) => whileStatement fuel ctx.enterLoop t.line
    | some (.returns, t) => returnStatement fuel ctx t.line
    | some (.exit exit close, t) => loopExit ctx exit close t.line
    | some (.block, t) =>
      let statements ← statementList fuel ctx
      let _ ← expect .rightBrace .blockEnd
      pure (.block statements t.line)
    | some (.print, t) => printStatement fuel ctx t.line
termination_by structural fuel => fuel

def forStatement : Nat → Context → Nat → Rule Stmt
  | 0, _, _ => fuelSpent
  | fuel + 1, ctx, line => do
    let _ ← expect .leftParen .forStart
    let init ← forInit fuel ctx
    let condition ← unlessSees .semicolon (expression fuel ctx)
    let _ ← expect .semicolon .forConditionEnd
    let increment ← unlessSees .rightParen (expression fuel ctx)
    let _ ← expect .rightParen .forEnd
    let body ← statement fuel ctx
    pure (.forLoop init condition increment body line)
termination_by structural fuel => fuel

def whileStatement : Nat → Context → Nat → Rule Stmt
  | 0, _, _ => fuelSpent
  | fuel + 1, ctx, line => do
    let _ ← expect .leftParen .whileStart
    let condition ← expression fuel ctx
    let _ ← expect .rightParen .whileEnd
    let body ← statement fuel ctx
    pure (.whileLoop condition body line)
termination_by structural fuel => fuel

/-- An `else` belongs to the nearest `if`. -/
def ifStatement : Nat → Context → Nat → Rule Stmt
  | 0, _, _ => fuelSpent
  | fuel + 1, ctx, line => do
    let _ ← expect .leftParen .ifStart
    let condition ← expression fuel ctx
    let _ ← expect .rightParen .ifEnd
    let thenBranch ← statement fuel ctx
    match ← accept? .kwElse with
    | none => pure (.ifThen condition thenBranch line)
    | some _ =>
      let elseBranch ← statement fuel ctx
      pure (.ifElse condition thenBranch elseBranch line)
termination_by structural fuel => fuel
end

/-- What was read of a token list: the statements before the first fault that stops the reading,
and every fault in the order of its report. -/
structure Parsed where
  statements : List Stmt
  diagnostics : List Diagnostic

/-- Reads declarations up to the end or the first fault; `none` when the fuel does not suffice. -/
def program : Nat → Cursor → Option Parsed
  | 0, _ => none
  | fuel + 1, c =>
    if c.atEnd then some ⟨[], c.reports⟩
    else
      match declaration fuel .top c with
      | .done s next => (program fuel next).map fun p => ⟨s :: p.statements, p.diagnostics⟩
      | .failed fault reports => some ⟨[], reports ++ [fault]⟩
      | .outOfFuel => none

/-- Between two tokens that are taken, rules nest less than sixteen deep. -/
def enoughFuel (tokens : List Token) : Nat := 16 * tokens.length + 16

/-- Reads a token list up to its first mark of the end. -/
def parse (tokens : List Token) : Parsed :=
  (program (enoughFuel tokens) ⟨tokens, []⟩).getD ⟨[], []⟩

end Lox.Grammar
