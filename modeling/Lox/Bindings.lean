/-! Names bound to values, in the order of their first binding. -/
namespace Lox

abbrev Bindings (α : Type) := List (String × α)

namespace Bindings

variable {α : Type}

def find? (b : Bindings α) (name : String) : Option α := b.lookup name

def has (b : Bindings α) (name : String) : Bool := (b.find? name).isSome

/-- Binds a name, in its old place if it is bound already. -/
def insert : Bindings α → String → α → Bindings α
  | [], name, a => [(name, a)]
  | (other, b) :: rest, name, a =>
    if other = name then (name, a) :: rest else (other, b) :: insert rest name a

def names (b : Bindings α) : List String := b.map Prod.fst

@[simp] theorem find?_nil (name : String) : find? ([] : Bindings α) name = none := rfl

@[simp] theorem find?_insert_self (b : Bindings α) (name : String) (a : α) :
    (b.insert name a).find? name = some a := by
  induction b with
  | nil => simp [insert, find?]
  | cons entry rest ih =>
    rcases entry with ⟨other, c⟩
    by_cases h : other = name
    · simp [insert, find?, h]
    · have hne : (name == other) = false := by simpa using fun e => h e.symm
      simpa [insert, find?, h, List.lookup_cons, hne] using ih

theorem find?_insert_ne (b : Bindings α) {name other : String} (a : α) (h : other ≠ name) :
    (b.insert name a).find? other = b.find? other := by
  induction b with
  | nil =>
    have hne : (other == name) = false := by simpa using h
    simp [insert, find?, List.lookup_cons, hne]
  | cons entry rest ih =>
    rcases entry with ⟨x, c⟩
    by_cases hx : x = name
    · have hne : (other == name) = false := by simpa using h
      simp [insert, find?, hx, List.lookup_cons, hne]
    · simp only [find?] at ih
      simp [insert, find?, hx, List.lookup_cons, ih]

theorem find?_insert (b : Bindings α) (name other : String) (a : α) :
    (b.insert name a).find? other = if other = name then some a else b.find? other := by
  by_cases h : other = name
  · simp [h]
  · simp [h, find?_insert_ne b a h]

end Bindings
end Lox
