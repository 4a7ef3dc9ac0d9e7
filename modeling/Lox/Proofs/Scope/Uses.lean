import Lox.Scope.Locate

/-! The plain names that an expression uses, and the walk of an expression told from them: it stops at
the first use that is a fault. -/
namespace Lox

/-- A place where a plain name is read or assigned. -/
structure Use where
  name : String
  line : Nat

mutual
/-- In the order of the walk. -/
def Expr.uses : Expr → List Use
  | .literal _ _ | .this _ _ => []
  | .group inner _ => inner.uses
  | .unary _ right _ => right.uses
  | .binary left _ right _ => left.uses ++ right.uses
  | .read o line => [⟨o.name, line⟩]
  | .assign target value line => value.uses ++ [⟨target.name, line⟩]
  | .get object _ _ => object.uses
  | .set object _ value _ => value.uses ++ object.uses
  | .call callee arguments _ => callee.uses ++ argumentUses arguments

def argumentUses : List Expr → List Use
  | [] => []
  | e :: rest => e.uses ++ argumentUses rest
end

def optionalUses : Option Expr → List Use
  | none => []
  | some e => e.uses

def Use.fault? (scopes : List Scope) (u : Use) : Option Diagnostic :=
  Occurrence.fault? scopes ⟨u.name, .global⟩ u.line

section
variable {scopes : List Scope}

mutual
/-- The walk of an expression stops at the first use that is a fault. -/
theorem Expr.locate_fault_eq : (e : Expr) →
    (e.locate scopes).2 = e.uses.findSome? (Use.fault? scopes)
  | .literal _ _ | .this _ _ => rfl
  | .group inner _ => inner.locate_fault_eq
  | .unary _ right _ => right.locate_fault_eq
  | .get object _ _ => object.locate_fault_eq
  | .binary left _ right _ => by
    simp only [Expr.locate, Expr.uses, List.findSome?_append, ← left.locate_fault_eq,
      ← right.locate_fault_eq]
    cases (left.locate scopes).2 <;> rfl
  | .read o line => by
    have hsame : Use.fault? scopes ⟨o.name, line⟩ = o.fault? scopes line := rfl
    simp only [Expr.locate, Expr.uses, List.findSome?_cons, hsame]
    cases o.fault? scopes line <;> rfl
  | .assign target value line => by
    have hsame : Use.fault? scopes ⟨target.name, line⟩ = target.fault? scopes line := rfl
    simp only [Expr.locate, Expr.uses, List.findSome?_append, List.findSome?_cons, hsame,
      ← value.locate_fault_eq]
    cases (value.locate scopes).2 with
    | some d => rfl
    | none => cases target.fault? scopes line <;> rfl
  | .set object _ value _ => by
    simp only [Expr.locate, Expr.uses, List.findSome?_append, ← value.locate_fault_eq,
      ← object.locate_fault_eq]
    cases (value.locate scopes).2 <;> rfl
  | .call callee arguments _ => by
    simp only [Expr.locate, Expr.uses, List.findSome?_append, ← callee.locate_fault_eq,
      ← locateArguments_fault_eq arguments]
    cases (callee.locate scopes).2 <;> rfl

theorem locateArguments_fault_eq : (es : List Expr) →
    (locateArguments scopes es).2 = (argumentUses es).findSome? (Use.fault? scopes)
  | [] => rfl
  | e :: rest => by
    simp only [locateArguments, argumentUses, List.findSome?_append, ← e.locate_fault_eq,
      ← locateArguments_fault_eq rest]
    cases (e.locate scopes).2 <;> rfl
end

/-- A fault of an expression is one of an occurrence in it. -/
theorem Expr.locate_fault {d : Diagnostic} (e : Expr) (h : (e.locate scopes).2 = some d) :
    ∃ (o : Occurrence) (line : Nat), o.fault? scopes line = some d := by
  rw [e.locate_fault_eq] at h
  obtain ⟨u, -, hu⟩ := List.exists_of_findSome?_eq_some h
  exact ⟨⟨u.name, .global⟩, u.line, hu⟩

/-- The scopes count only for which occurrences are faults. -/
theorem Expr.locate_fault_congr {scopes' : List Scope}
    (h : ∀ (o : Occurrence) (line : Nat), o.fault? scopes line = o.fault? scopes' line)
    (e : Expr) : (e.locate scopes).2 = (e.locate scopes').2 := by
  have hsame : Use.fault? scopes = Use.fault? scopes' := funext fun u => h _ _
  rw [e.locate_fault_eq, e.locate_fault_eq, hsame]

end

end Lox
