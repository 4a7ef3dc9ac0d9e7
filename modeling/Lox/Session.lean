import Lox.Program

/-! Sessions: several sources, and questions about expressions, on one machine. -/
namespace Lox

/-- What one source of a session did. -/
structure Entry where
  printed : ByteArray
  failure : Option Failure
  /-- Whether the session has failed at run time so far. -/
  hadError : Bool

/-- Runs one source and notes what it did. -/
def Machine.enterSource (fuel : Nat) (source : String) (m : Machine) : Option (Entry × Machine) :=
  let start := m.sink.written.size
  (m.run fuel source).map fun r => (⟨r.2.printedFrom start, r.1, r.2.hadError⟩, r.2)

/-- Runs sources one after the other, failing ones included. -/
def Machine.session (fuel : Nat) : List String → Machine → Option (List Entry × Machine)
  | [], m => some ([], m)
  | source :: rest, m => do
    let (entry, m) ← m.enterSource fuel source
    let (entries, m) ← m.session fuel rest
    pure (entry :: entries, m)

theorem Machine.session_cons_eq_some {fuel : Nat} {source : String} {rest : List String}
    {entries : List Entry} {m m' : Machine} :
    m.session fuel (source :: rest) = some (entries, m') ↔
      ∃ f? mid others, m.run fuel source = some (f?, mid) ∧
        mid.session fuel rest = some (others, m') ∧
        entries = ⟨mid.printedFrom m.sink.written.size, f?, mid.hadError⟩ :: others := by
  simp only [session, enterSource, Option.bind_eq_bind, Option.bind_eq_some_iff,
    Option.map_eq_some_iff]
  constructor
  · rintro ⟨first, ⟨⟨f?, mid⟩, hrun, rfl⟩, ⟨others, last⟩, hothers, hlast⟩
    cases hlast
    exact ⟨f?, mid, others, hrun, hothers, rfl⟩
  · rintro ⟨f?, mid, others, hrun, hothers, rfl⟩
    exact ⟨_, ⟨(f?, mid), hrun, rfl⟩, (others, m'), hothers, rfl⟩

/-- The answer to a question about an expression. -/
inductive Reply where
  | value (v : Value)
  | fault (d : Diagnostic)
  | rejected (f : Failure)
  | notAnExpression

/-- The value of an expression on a machine. -/
def Machine.ask (fuel : Nat) (text : String) (m : Machine) : Option (Reply × Machine) :=
  match compile (text ++ ";") with
  | .error f => some (.rejected f, m)
  | .ok [.expression e _] =>
    match evaluate fuel e m with
    | .done v m => some (.value v, m)
    | .failed d m => some (.fault d, m)
    | .outOfFuel => none
  | .ok _ => some (.notAnExpression, m)

end Lox
