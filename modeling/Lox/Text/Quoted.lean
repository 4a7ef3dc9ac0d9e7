import Lox.Text.Unprintable
import Lox.Text.Attaching

/-! Strings in quotes, in which all that cannot be seen by itself is spelled out. -/
namespace Lox.Text

/-- A character by its code point. -/
def codePoint (c : Char) : List Char :=
  ['\\', 'u', '\x7b'] ++ Nat.toDigits 16 c.toNat ++ ['\x7d']

/-- A character between quotes. Apostrophes stand for themselves. -/
def spelled (c : Char) : List Char :=
  if c = '\x22' then ['\\', '\x22']
  else if c = '\\' then ['\\', '\\']
  else if c = '\n' then ['\\', 'n']
  else if c = '\r' then ['\\', 'r']
  else if c = '\t' then ['\\', 't']
  else if c = '\x00' then ['\\', '0']
  else if isAttaching c || isUnprintable c then codePoint c
  else [c]

def quoted (s : String) : String := "\"" ++ String.ofList (s.toList.flatMap spelled) ++ "\""

end Lox.Text
