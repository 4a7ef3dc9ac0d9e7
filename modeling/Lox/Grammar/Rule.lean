import Lox.Tree

/-! Grammar rules: readers of a token list that keep their place and the faults they could read
past. -/
namespace Lox.Grammar

/-- The tokens still to read and the faults reported so far, oldest first. -/
structure Cursor where
  rest : List Token
  reports : List Diagnostic

/-- How a rule ends: with a value, with the fault that stops it, or out of fuel. -/
inductive Outcome (α : Type) where
  | done (value : α) (next : Cursor)
  | failed (fault : Diagnostic) (reports : List Diagnostic)
  | outOfFuel

def Rule (α : Type) : Type := Cursor → Outcome α

namespace Rule

@[inline] protected def pure {α : Type} (value : α) : Rule α := fun c => .done value c

@[inline] protected def bind {α β : Type} (r : Rule α) (f : α → Rule β) : Rule β := fun c =>
  match r c with
  | .done value next => f value next
  | .failed fault reports => .failed fault reports
  | .outOfFuel => .outOfFuel

instance : Monad Rule where
  pure := Rule.pure
  bind := Rule.bind

@[simp] theorem pure_apply {α : Type} (value : α) (c : Cursor) :
    (pure value : Rule α) c = .done value c := rfl

theorem bind_apply {α β : Type} (r : Rule α) (f : α → Rule β) (c : Cursor) :
    (r >>= f) c = match r c with
      | .done value next => f value next
      | .failed fault reports => .failed fault reports
      | .outOfFuel => .outOfFuel := rfl

theorem bind_eq_done_iff {α β : Type} {r : Rule α} {f : α → Rule β} {c last : Cursor} {b : β} :
    (r >>= f) c = .done b last ↔ ∃ a next, r c = .done a next ∧ f a next = .done b last := by
  rw [bind_apply]
  cases r c with
  | done a next => exact ⟨fun h => ⟨a, next, rfl, h⟩, fun ⟨_, _, h, h'⟩ => by cases h; exact h'⟩
  | failed fault reports => simp
  | outOfFuel => simp

end Rule

/-- The list is used up at its end and at every mark of the end. -/
def Cursor.atEnd (c : Cursor) : Bool :=
  match c.rest with
  | [] => true
  | t :: _ => t.kind == .eof

/-- The line of the next token. -/
def Cursor.line (c : Cursor) : Nat :=
  match c.rest with
  | [] => 0
  | t :: _ => t.line

def Cursor.sees (c : Cursor) (kind : Kind) : Bool :=
  match c.rest with
  | [] => false
  | t :: _ => t.kind != .eof && t.kind == kind

def fuelSpent {α : Type} : Rule α := fun _ => .outOfFuel

/-- Stops with a fault at `line`. -/
def fault {α : Type} (line : Nat) (f : GrammarFault) : Rule α := fun c =>
  .failed ⟨line, .grammar f⟩ c.reports

/-- Stops with a fault at the next token. -/
def faultHere {α : Type} (f : GrammarFault) : Rule α := fun c =>
  .failed ⟨c.line, .grammar f⟩ c.reports

/-- Reports a fault at the next token and reads on. -/
def reportHere (f : GrammarFault) : Rule Unit := fun c =>
  .done () { c with reports := c.reports ++ [⟨c.line, .grammar f⟩] }

def atEnd : Rule Bool := fun c => .done c.atEnd c

def sees (kind : Kind) : Rule Bool := fun c => .done (c.sees kind) c

/-- Takes the next token if it is of the given kind. -/
def accept? (kind : Kind) : Rule (Option Token) := fun c =>
  match c.rest with
  | [] => .done none c
  | t :: rest =>
    if t.kind != .eof && t.kind == kind then .done (some t) { c with rest } else .done none c

/-- Takes the next token if `f` has a value for its kind. -/
def acceptSome? {α : Type} (f : Kind → Option α) : Rule (Option (α × Token)) := fun c =>
  match c.rest with
  | [] => .done none c
  | t :: rest =>
    match f t.kind with
    | some a => .done (some (a, t)) { c with rest }
    | none => .done none c

/-- Takes a token of the given kind; anything else is a fault at that place. -/
def expect (kind : Kind) (what : Expected) : Rule Token := do
  match ← accept? kind with
  | some t => pure t
  | none => faultHere (.expected what)

/-- What the grammar allows depends on what is around: a loop of the same function, a function,
a class. -/
structure Context where
  inLoop : Bool
  inFunction : Bool
  inClass : Bool
  deriving DecidableEq, Repr

def Context.top : Context := ⟨false, false, false⟩
def Context.enterLoop (c : Context) : Context := { c with inLoop := true }
def Context.enterClass (c : Context) : Context := { c with inClass := true }

/-- A function body is in no loop, whatever surrounds the function. -/
def Context.enterFunction (c : Context) : Context := { c with inLoop := false, inFunction := true }

end Lox.Grammar
