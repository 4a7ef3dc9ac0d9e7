import Lox.Sink
import Lox.Value

/-! What a running program has around it, whatever its memory is like: the count of its calls, the
place it prints to and the clock. -/
namespace Lox

/-- The deepest nesting of calls. -/
def callLimit : Nat := 255

structure World where
  /-- The calls that are active. -/
  calls : Nat
  /-- The most calls that may be active at once, if there is a limit. -/
  limit : Option Nat
  sink : Sink
  /-- The successive values of the clock, and how many of them have been read. -/
  clock : Nat → Float
  ticks : Nat
  /-- Set by the first failure and never reset. -/
  hadError : Bool

namespace World

def start (limit : Option Nat) (sink : Sink) (clock : Nat → Float) : World :=
  { calls := 0, limit, sink, clock, ticks := 0, hadError := false }

def atLimit (w : World) : Bool :=
  match w.limit with
  | none => false
  | some n => n ≤ w.calls

def enterCall (w : World) : World := { w with calls := w.calls + 1 }

def leaveCall (w : World) : World := { w with calls := w.calls - 1 }

/-- Writes a line; the answer says whether all of it was accepted. -/
def print (w : World) (text : String) : Bool × World :=
  let r := w.sink.write (text ++ "\n")
  (r.1, { w with sink := r.2 })

/-- The next value of the clock. -/
def tick (w : World) : Value × World :=
  (.number (w.clock w.ticks), { w with ticks := w.ticks + 1 })

/-- After a failure no call is active. -/
def fail (w : World) : World := { w with hadError := true, calls := 0 }

/-- What has been printed behind the first `start` bytes. -/
def printedFrom (w : World) (start : Nat) : ByteArray :=
  w.sink.written.extract start w.sink.written.size

end World
end Lox
