import Lox.Token
import Lox.Fault

/-! Source text cut into segments: gaps, tokens and faulty stretches. -/
namespace Lox

inductive Content where
  | gap
  | token (kind : Kind) (literal : Literal)
  | fault (f : LexicalFault)
  deriving Repr

/-- A stretch of source text and what it is. -/
structure Segment where
  text : List Char
  content : Content
  deriving Repr

namespace Segment

/-- Kinds that one character makes whatever follows it. -/
def single? : Char → Option Kind
  | '(' => some .leftParen
  | ')' => some .rightParen
  | '\x7b' => some .leftBrace
  | '\x7d' => some .rightBrace
  | ',' => some .comma
  | '.' => some .dot
  | '-' => some .minus
  | '+' => some .plus
  | ';' => some .semicolon
  | '*' => some .star
  | _ => none

/-- Kinds of a character alone and of the character with an equals sign after it. -/
def paired? : Char → Option (Kind × Kind)
  | '!' => some (.bang, .bangEqual)
  | '=' => some (.equal, .equalEqual)
  | '<' => some (.less, .lessEqual)
  | '>' => some (.greater, .greaterEqual)
  | _ => none

def isGap (c : Char) : Bool := c = ' ' || c = '\t' || c = '\r' || c = '\n'
def isWordStart (c : Char) : Bool := c.isAlpha || c = '_'
def isWordPart (c : Char) : Bool := c.isAlphanum || c = '_'
def isQuote (c : Char) : Bool := c = '\x22'
def isNewline (c : Char) : Bool := c = '\n'

/-- The digits of a number after its first character: a fraction belongs to it only if a digit
follows the point. -/
def numberTail (rest : List Char) : List Char × List Char :=
  let whole := rest.takeWhile Char.isDigit
  match rest.dropWhile Char.isDigit with
  | '.' :: d :: more =>
    if d.isDigit then (whole, d :: more.takeWhile Char.isDigit) else (whole, [])
  | _ => (whole, [])

private def digitsValue (digits : List Char) : Nat :=
  digits.foldl (fun n d => 10 * n + (d.toNat - 48)) 0

/-- The double nearest to a decimal. -/
def numberValue (whole fraction : List Char) : Float :=
  Float.ofScientific (digitsValue (whole ++ fraction)) true fraction.length

private def plain (text : List Char) (kind : Kind) : Segment := ⟨text, .token kind .nil⟩

/-- The literal of a keyword. -/
def wordLiteral : Kind → Literal
  | .kwTrue => .bool true
  | .kwFalse => .bool false
  | _ => .nil

/-- A string runs to the next quote; without one the fault takes all the rest. -/
def string (rest : List Char) : Segment :=
  let body := rest.takeWhile (fun c => !isQuote c)
  match rest.dropWhile (fun c => !isQuote c) with
  | [] => ⟨'\x22' :: body, .fault .openString⟩
  | quote :: _ => ⟨'\x22' :: body ++ [quote], .token .string (.string (String.ofList body))⟩

def number (c : Char) (rest : List Char) : Segment :=
  let (whole, fraction) := numberTail rest
  let point := if fraction.isEmpty then [] else ['.']
  ⟨c :: whole ++ point ++ fraction, .token .number (.number (numberValue (c :: whole) fraction))⟩

def word (c : Char) (rest : List Char) : Segment :=
  let text := c :: rest.takeWhile isWordPart
  let kind := Kind.ofWord (String.ofList text)
  ⟨text, .token kind (wordLiteral kind)⟩

/-- A comment stops before the end of its line. -/
def slash (rest : List Char) : Segment :=
  match rest with
  | '/' :: more => ⟨'/' :: '/' :: more.takeWhile (fun c => !isNewline c), .gap⟩
  | _ => plain ['/'] .slash

/-- The segment that starts with `c` when `rest` follows. -/
def first (c : Char) (rest : List Char) : Segment :=
  match single? c with
  | some kind => plain [c] kind
  | none =>
    match paired? c with
    | some (alone, withEqual) =>
      if rest.head? = some '=' then plain [c, '='] withEqual else plain [c] alone
    | none =>
      if isGap c then ⟨[c], .gap⟩
      else if c = '/' then slash rest
      else if isQuote c then string rest
      else if c.isDigit then number c rest
      else if isWordStart c then word c rest
      else ⟨[c], .fault (.strayCharacter c)⟩

/-- The newlines in a segment. -/
def newlines (s : Segment) : Nat := s.text.count '\n'

end Segment

private theorem drop_lt (n : Nat) (c : Char) (rest : List Char) :
    (rest.drop (n - 1)).length < (c :: rest).length := by
  rw [List.length_drop, List.length_cons]
  omega

/-- The segments of a text, in order. Every step takes at least one character. -/
def Segment.all : List Char → List Segment
  | [] => []
  | c :: rest =>
    let s := first c rest
    s :: all (rest.drop (s.text.length - 1))
termination_by source => source.length
decreasing_by exact drop_lt _ _ _

end Lox
