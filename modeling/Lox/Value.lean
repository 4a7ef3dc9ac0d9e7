import Lox.Number.Layout

/-! Runtime values. Functions, classes and instances are known by their place in the heap. -/
namespace Lox

abbrev FrameId := Nat
abbrev FunctionId := Nat
abbrev ClassId := Nat
abbrev InstanceId := Nat

/-- Functions that are part of the language. -/
inductive Native where
  | clock
  deriving DecidableEq, Repr

def Native.name : Native → String
  | clock => "clock"

def Native.arity : Native → Nat
  | clock => 0

def Native.all : List Native := [.clock]

inductive Value where
  | nil
  | bool (b : Bool)
  | number (x : Float)
  | string (s : String)
  | native (n : Native)
  | function (id : FunctionId)
  | classObject (id : ClassId)
  | object (id : InstanceId)
  deriving Repr

namespace Value

/-- Nil, false and both zeros are false; all else is true, NaN as well. -/
def isTruthy : Value → Bool
  | nil => false
  | bool b => b
  | number x => x != 0.0
  | _ => true

def typeName : Value → String
  | nil => "nil"
  | bool _ => "boolean"
  | number _ => "number"
  | string _ => "string"
  | native _ | function _ => "function"
  | classObject _ => "class"
  | object _ => "instance"

/-- Values of different types differ; functions, classes and instances are equal only to
themselves, and NaN to nothing. -/
def equal : Value → Value → Bool
  | nil, nil => true
  | bool a, bool b => a == b
  | number x, number y => x == y
  | string s, string t => s == t
  | native m, native n => m == n
  | function i, function j => i == j
  | classObject i, classObject j => i == j
  | object i, object j => i == j
  | _, _ => false

end Value
end Lox
