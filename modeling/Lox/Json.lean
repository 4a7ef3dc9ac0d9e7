import Lox.Number.Layout

/-! JSON values and their indented text. -/
namespace Lox

/-- A JSON value whose objects keep the order of their members. -/
inductive Json where
  | null
  | bool (b : Bool)
  | nat (n : Nat)
  | number (x : Float)
  | text (s : String)
  | list (items : List Json)
  | object (members : List (String × Json))

namespace Json

/-- An object with a single member, the usual form of a tagged value. -/
def tagged (tag : String) (value : Json) : Json := .object [(tag, value)]

private def hexDigit (n : Nat) : Char := Char.ofNat (if n < 10 then 48 + n else 87 + n)

/-- A character inside a quoted string. Quotes, backslashes and control characters are escaped;
all else stands for itself. -/
def escaped (c : Char) : List Char :=
  if c = '\x22' then ['\\', '\x22']
  else if c = '\\' then ['\\', '\\']
  else if c = '\x08' then ['\\', 'b']
  else if c = '\x0c' then ['\\', 'f']
  else if c = '\n' then ['\\', 'n']
  else if c = '\r' then ['\\', 'r']
  else if c = '\t' then ['\\', 't']
  else if c.toNat < 32 then
    ['\\', 'u', '0', '0', hexDigit (c.toNat / 16), hexDigit (c.toNat % 16)]
  else [c]

def quoted (s : String) : String :=
  "\"" ++ String.ofList (s.toList.flatMap escaped) ++ "\""

private def newline (depth : Nat) : String := "\n" ++ String.ofList (List.replicate (2 * depth) ' ')

/-- The lines of a bracketed list, one item a line; nothing stands between empty brackets. -/
private def bracketed (opening closing : String) (depth : Nat) (items : List String) : String :=
  if items.isEmpty then opening ++ closing
  else opening ++ newline (depth + 1) ++ (("," ++ newline (depth + 1)).intercalate items)
    ++ newline depth ++ closing

mutual
/-- The text of a value that starts `depth` levels inside. -/
def render (depth : Nat) : Json → String
  | .null => "null"
  | .bool b => if b then "true" else "false"
  | .nat n => String.ofList (Nat.toDigits 10 n)
  | .number x => Number.inJson.write x
  | .text s => quoted s
  | .list items => bracketed "[" "]" depth (renderItems (depth + 1) items)
  | .object members => bracketed "\x7b" "\x7d" depth (renderMembers (depth + 1) members)

def renderItems (depth : Nat) : List Json → List String
  | [] => []
  | item :: rest => render depth item :: renderItems depth rest

def renderMembers (depth : Nat) : List (String × Json) → List String
  | [] => []
  | (key, value) :: rest => (quoted key ++ ": " ++ render depth value) :: renderMembers depth rest
end

/-- The text of a value, two spaces for each level. -/
def pretty (value : Json) : String := render 0 value

end Json
end Lox
