import Lox.Json

/-! Tokens: their kinds, the literals they carry, and how they are shown. -/
namespace Lox

inductive Kind where
  | leftParen | rightParen | leftBrace | rightBrace | comma | dot | minus | plus | semicolon
  | slash | star
  | bang | bangEqual | equal | equalEqual | greater | greaterEqual | less | lessEqual
  | identifier | string | number
  | kwAnd | kwBreak | kwClass | kwContinue | kwElse | kwFalse | kwFun | kwFor | kwIf | kwNil
  | kwOr | kwPrint | kwReturn | kwSuper | kwThis | kwTrue | kwVar | kwWhile
  | eof
  deriving DecidableEq, Repr

/-- The name of a kind, as it is shown. -/
def Kind.name : Kind → String
  | leftParen => "LEFT_PAREN"
  | rightParen => "RIGHT_PAREN"
  | leftBrace => "LEFT_BRACE"
  | rightBrace => "RIGHT_BRACE"
  | comma => "COMMA"
  | dot => "DOT"
  | minus => "MINUS"
  | plus => "PLUS"
  | semicolon => "SEMICOLON"
  | slash => "SLASH"
  | star => "STAR"
  | bang => "BANG"
  | bangEqual => "BANG_EQUAL"
  | equal => "EQUAL"
  | equalEqual => "EQUAL_EQUAL"
  | greater => "GREATER"
  | greaterEqual => "GREATER_EQUAL"
  | less => "LESS"
  | lessEqual => "LESS_EQUAL"
  | identifier => "IDENTIFIER"
  | string => "STRING"
  | number => "NUMBER"
  | kwAnd => "AND"
  | kwBreak => "BREAK"
  | kwClass => "CLASS"
  | kwContinue => "CONTINUE"
  | kwElse => "ELSE"
  | kwFalse => "FALSE"
  | kwFun => "FUN"
  | kwFor => "FOR"
  | kwIf => "IF"
  | kwNil => "NIL"
  | kwOr => "OR"
  | kwPrint => "PRINT"
  | kwReturn => "RETURN"
  | kwSuper => "SUPER"
  | kwThis => "THIS"
  | kwTrue => "TRUE"
  | kwVar => "VAR"
  | kwWhile => "WHILE"
  | eof => "EOF"

/-- The reserved words. -/
def Kind.keywords : List (String × Kind) :=
  [("and", kwAnd), ("break", kwBreak), ("class", kwClass), ("continue", kwContinue),
   ("else", kwElse), ("false", kwFalse), ("fun", kwFun), ("for", kwFor), ("if", kwIf),
   ("nil", kwNil), ("or", kwOr), ("print", kwPrint), ("return", kwReturn), ("super", kwSuper),
   ("this", kwThis), ("true", kwTrue), ("var", kwVar), ("while", kwWhile)]

/-- The kind of a word: its keyword if it is reserved, else an identifier. -/
def Kind.ofWord (word : String) : Kind := (keywords.lookup word).getD identifier

/-- The constant that a token or a tree carries. -/
inductive Literal where
  | nil
  | bool (b : Bool)
  | number (x : Float)
  | string (s : String)
  deriving Repr

def Literal.toJson : Literal → Json
  | nil => .text "Nil"
  | bool b => .tagged "Bool" (.bool b)
  | number x => .tagged "Number" (.number x)
  | string s => .tagged "Str" (.text s)

structure Token where
  kind : Kind
  lexeme : String
  literal : Literal
  line : Nat
  deriving Repr

namespace Token

/-- What is shown of a literal; a constant of another kind than the token's is not shown. -/
def literalText (t : Token) : String :=
  match t.kind, t.literal with
  | .string, .string s => s
  | .number, .number x => Number.inToken.write x
  | _, _ => "null"

/-- Kind, lexeme and literal, separated by blanks. -/
def text (t : Token) : String := t.kind.name ++ " " ++ t.lexeme ++ " " ++ t.literalText

def toJson (t : Token) : Json :=
  .object [("token_type", .text t.kind.name), ("lexeme", .text t.lexeme),
    ("literal", t.literal.toJson), ("line", .nat t.line)]

end Token
end Lox
