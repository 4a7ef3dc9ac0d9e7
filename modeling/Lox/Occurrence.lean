import Lox.Json

/-! Occurrences of names and where they are bound. -/
namespace Lox

/-- Where the frame of a name lies: at the root of the chain of frames, or `n` links up it. -/
inductive Depth where
  | global
  | hops (n : Nat)
  deriving DecidableEq, Repr

namespace Depth

def text : Depth → String
  | global => "Global"
  | hops n => "Local(" ++ String.ofList (Nat.toDigits 10 n) ++ ")"

def toJson : Depth → Json
  | global => .text "Global"
  | hops n => .tagged "Local" (.nat n)

end Depth

/-- A name at one place of a program. It starts out global and keeps the distance that scoping
finds for it. -/
structure Occurrence where
  name : String
  depth : Depth := .global
  deriving DecidableEq, Repr

def Occurrence.toJson (o : Occurrence) : Json :=
  .object [("name", .text o.name), ("depth", o.depth.toJson)]

end Lox
