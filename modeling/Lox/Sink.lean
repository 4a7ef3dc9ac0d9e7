/-! Where printed text goes: bytes, of which only so many may be accepted. -/
namespace Lox

/-- The bytes written so far and, if there is a limit, how many more are accepted. -/
structure Sink where
  written : ByteArray
  room : Option Nat

namespace Sink

def unlimited : Sink := ⟨.empty, none⟩

def limited (n : Nat) : Sink := ⟨.empty, some n⟩

/-- Writes the bytes that fit; the answer says whether all did. -/
def write (s : Sink) (text : String) : Bool × Sink :=
  let bytes := text.toUTF8
  match s.room with
  | none => (true, { s with written := s.written ++ bytes })
  | some n =>
    if bytes.size ≤ n then (true, ⟨s.written ++ bytes, some (n - bytes.size)⟩)
    else (false, ⟨s.written ++ bytes.extract 0 n, some 0⟩)

end Sink

/-- The text of bytes of which the last character may be cut short; the replacement character
stands for what is left of it. -/
def textOfCut (bytes : ByteArray) : String :=
  let upTo (dropped : Nat) : Option String := String.fromUTF8? (bytes.extract 0 (bytes.size - dropped))
  match upTo 0 with
  | some s => s
  | none =>
    match upTo 1 <|> upTo 2 <|> upTo 3 with
    | some s => s.push '\ufffd'
    | none => ""

end Lox
