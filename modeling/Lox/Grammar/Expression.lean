import Lox.Grammar.Rule

/-! The grammar of expressions. -/
namespace Lox.Grammar

/-- The operators of one precedence, as a map from kinds. -/
abbrev Tier := Kind → Option BinaryOp

def orTier : Tier
  | .kwOr => some .or
  | _ => none

def andTier : Tier
  | .kwAnd => some .and
  | _ => none

def equalityTier : Tier
  | .bangEqual => some (.strict .notEqual)
  | .equalEqual => some (.strict .equal)
  | _ => none

def comparisonTier : Tier
  | .greater => some (.strict .greater)
  | .greaterEqual => some (.strict .greaterEqual)
  | .less => some (.strict .less)
  | .lessEqual => some (.strict .lessEqual)
  | _ => none

def termTier : Tier
  | .minus => some (.strict .subtract)
  | .plus => some (.strict .add)
  | _ => none

def factorTier : Tier
  | .star => some (.strict .multiply)
  | .slash => some (.strict .divide)
  | _ => none

/-- The tiers of binary operators, loosest first. -/
def tiers : List Tier := [orTier, andTier, equalityTier, comparisonTier, termTier, factorTier]

def unaryTier : Kind → Option UnaryOp
  | .bang => some .not
  | .minus => some .negate
  | _ => none

/-- Tokens that are an expression by themselves. -/
def literalKind? : Kind → Option Unit
  | .kwFalse | .kwTrue | .kwNil | .number | .string => some ()
  | _ => none

mutual
/-- An assignment is found out only behind its target, which was read as an expression. -/
def expression : Nat → Context → Rule Expr
  | 0, _ => fuelSpent
  | fuel + 1, ctx => do
    let target ← operators fuel ctx tiers
    match ← accept? .equal with
    | none => pure target
    | some sign =>
      let value ← expression fuel ctx
      match target with
      | .read occurrence line => pure (.assign occurrence value line)
      | .get object name line => pure (.set object name value line)
      | _ => fault sign.line .invalidTarget

/-- Operands of the first of the given tiers, joined by its operators to the left. -/
def operators : Nat → Context → List Tier → Rule Expr
  | 0, _, _ => fuelSpent
  | fuel + 1, ctx, [] => unary fuel ctx
  | fuel + 1, ctx, tier :: tighter => do
    let left ← operators fuel ctx tighter
    operatorsAfter fuel ctx tier tighter left

def operatorsAfter : Nat → Context → Tier → List Tier → Expr → Rule Expr
  | 0, _, _, _, _ => fuelSpent
  | fuel + 1, ctx, tier, tighter, left => do
    match ← acceptSome? tier with
    | none => pure left
    | some (op, _) =>
      let right ← operators fuel ctx tighter
      operatorsAfter fuel ctx tier tighter (.binary left op right left.line)

def unary : Nat → Context → Rule Expr
  | 0, _ => fuelSpent
  | fuel + 1, ctx => do
    match ← acceptSome? unaryTier with
    | some (op, sign) =>
      let right ← unary fuel ctx
      pure (.unary op right sign.line)
    | none =>
      let callee ← primary fuel ctx
      callsAfter fuel ctx callee

/-- Calls and property reads, each of what is to its left. -/
def callsAfter : Nat → Context → Expr → Rule Expr
  | 0, _, _ => fuelSpent
  | fuel + 1, ctx, callee => do
    match ← accept? .leftParen with
    | some _ =>
      let arguments ← if ← sees .rightParen then pure [] else argumentList fuel ctx 0
      let _ ← expect .rightParen .argumentsEnd
      callsAfter fuel ctx (.call callee arguments callee.line)
    | none =>
      match ← accept? .dot with
      | some _ =>
        let name ← expect .identifier .propertyName
        callsAfter fuel ctx (.get callee name.lexeme callee.line)
      | none => pure callee

/-- The arguments behind the first `taken` ones. A list that is too long is reported once and
read on. -/
def argumentList : Nat → Context → Nat → Rule (List Expr)
  | 0, _, _ => fuelSpent
  | fuel + 1, ctx, taken => do
    if taken = Capped.limit then reportHere (.tooMany .arguments)
    let argument ← expression fuel ctx
    match ← accept? .comma with
    | none => pure [argument]
    | some _ =>
      let more ← argumentList fuel ctx (taken + 1)
      pure (argument :: more)

def primary : Nat → Context → Rule Expr
  | 0, _ => fuelSpent
  | fuel + 1, ctx => do
    match ← acceptSome? literalKind? with
    | some (_, t) => pure (.literal t.literal t.line)
    | none =>
      match ← accept? .identifier with
      | some t => pure (.read ⟨t.lexeme, .global⟩ t.line)
      | none =>
        match ← accept? .kwThis with
        | some t =>
          if ctx.inClass then pure (.this ⟨"this", .global⟩ t.line)
          else fault t.line .thisOutsideClass
        | none =>
          match ← accept? .leftParen with
          | some t =>
            let inner ← expression fuel ctx
            let _ ← expect .rightParen .groupEnd
            pure (.group inner t.line)
          | none =>
            if ← atEnd then faultHere .endOfInput else faultHere (.expected .expression)
end

end Lox.Grammar
