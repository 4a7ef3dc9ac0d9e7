import Lox.Scope.Locate

/-! The walk of the scopes reports faults of scoping and nothing else, and takes no report back. -/
namespace Lox

/-- A fault that the scopes can have. -/
def Diagnostic.IsScope (d : Diagnostic) : Prop := ∃ f, d.fault = .scope f

theorem Occurrence.fault?_isScope {scopes : List Scope} {o : Occurrence} {line : Nat}
    {d : Diagnostic} (h : o.fault? scopes line = some d) : d.IsScope := by
  unfold Occurrence.fault? at h
  split at h
  · cases h
  · split at h
    · cases h
      exact ⟨_, rfl⟩
    · cases h

mutual
theorem Expr.locate_isScope {scopes : List Scope} {d : Diagnostic} :
    (e : Expr) → (e.locate scopes).2 = some d → d.IsScope
  | .literal _ _, h => by cases h
  | .group inner _, h => inner.locate_isScope h
  | .unary _ right _, h => right.locate_isScope h
  | .binary left _ right _, h => by
    rw [Expr.locate] at h
    split at h
    next hl =>
      cases h
      exact left.locate_isScope hl
    next => exact right.locate_isScope h
  | .read o line, h => by
    rw [Expr.locate] at h
    split at h
    next hf =>
      cases h
      exact Occurrence.fault?_isScope hf
    next => cases h
  | .this _ _, h => by cases h
  | .assign target value line, h => by
    rw [Expr.locate] at h
    split at h
    next hv =>
      cases h
      exact value.locate_isScope hv
    next =>
      split at h
      next hf =>
        cases h
        exact Occurrence.fault?_isScope hf
      next => cases h
  | .get object _ _, h => object.locate_isScope h
  | .set object _ value _, h => by
    rw [Expr.locate] at h
    split at h
    next hv =>
      cases h
      exact value.locate_isScope hv
    next => exact object.locate_isScope h
  | .call callee arguments _, h => by
    rw [Expr.locate] at h
    split at h
    next hc =>
      cases h
      exact callee.locate_isScope hc
    next => exact locateArguments_isScope arguments h

theorem locateArguments_isScope {scopes : List Scope} {d : Diagnostic} :
    (es : List Expr) → (locateArguments scopes es).2 = some d → d.IsScope
  | [], h => by cases h
  | e :: rest, h => by
    rw [locateArguments] at h
    split at h
    next he =>
      cases h
      exact e.locate_isScope he
    next => exact locateArguments_isScope rest h
end

namespace Scoping

/-- The reports of `s'` are those of `s` and further faults of scoping. -/
def Adds (s s' : Scoping) : Prop :=
  ∃ more, s'.reports = s.reports ++ more ∧ ∀ d ∈ more, d.IsScope

namespace Adds

variable {s s' s'' : Scoping}

theorem of_eq (h : s'.reports = s.reports) : s.Adds s' := ⟨[], by simp [h], by simp⟩

theorem refl (s : Scoping) : s.Adds s := of_eq rfl

theorem trans (h : s.Adds s') (h' : s'.Adds s'') : s.Adds s'' := by
  rcases h with ⟨more, hr, hm⟩
  rcases h' with ⟨more', hr', hm'⟩
  exact ⟨more ++ more', by rw [hr', hr, List.append_assoc], List.forall_mem_append.2 ⟨hm, hm'⟩⟩

theorem nil (h : s.Adds s') (hq : s'.reports = []) : s.reports = [] := by
  rcases h with ⟨more, hr, -⟩
  rw [hr] at hq
  exact (List.append_eq_nil_iff.1 hq).1

/-- Opening, closing and filling a scope in front of a walk reports nothing. -/
theorem congr_left {t : Scoping} (h : t.Adds s') (ht : t.reports = s.reports) : s.Adds s' :=
  (of_eq ht).trans h

theorem congr_right {t : Scoping} (h : s.Adds t) (ht : s'.reports = t.reports) : s.Adds s' :=
  h.trans (of_eq ht)

end Adds

variable (s : Scoping)

@[simp] theorem enter_reports (scope : Scope) : (s.enter scope).reports = s.reports := rfl

@[simp] theorem leave_reports : s.leave.reports = s.reports := rfl

@[simp] theorem record_reports (name : String) (ready : Bool) :
    (s.record name ready).reports = s.reports := by
  unfold record
  split <;> rfl

theorem adds_report {d : Diagnostic} (h : d.IsScope) : s.Adds (s.report d) :=
  ⟨[d], rfl, by simpa using h⟩

theorem adds_redeclared (name : String) (line : Nat) : s.Adds (s.redeclared name line) :=
  s.adds_report ⟨_, rfl⟩

theorem locate_adds (e : Expr) : s.Adds (s.locate e).2 := by
  simp only [locate]
  split
  next d h => exact s.adds_report (e.locate_isScope h)
  next => exact .refl s

theorem locate?_adds (e? : Option Expr) : s.Adds (s.locate? e?).2 := by
  cases e? with
  | none => exact .refl s
  | some e => exact s.locate_adds e

theorem locateVar_adds (decl : VarDecl) : s.Adds (s.locateVar decl).2 := by
  unfold locateVar
  split
  · exact s.adds_redeclared _ _
  · have h := (s.record decl.name false).locate?_adds decl.initializer
    exact (h.congr_left (by simp)).congr_right (by simp)

theorem locateInit_adds (init : ForInit) : s.Adds (s.locateInit init).2 := by
  cases init with
  | nothing => exact .refl s
  | declare decl => exact s.locateVar_adds decl
  | evaluate e => exact s.locate_adds e

theorem declareParams_adds (line : Nat) (params : List String) :
    s.Adds (s.declareParams line params) := by
  induction params generalizing s with
  | nil => exact .refl s
  | cons name rest ih =>
    rw [declareParams]
    split
    · exact (s.adds_redeclared name line).trans (ih _)
    · exact (ih _).congr_left (by simp)

end Scoping

mutual
theorem Stmt.locate_adds : (stmt : Stmt) → (s : Scoping) → s.Adds (stmt.locate s).2
  | .expression e _, s => s.locate_adds e
  | .print e _, s => s.locate_adds e
  | .var decl, s => s.locateVar_adds decl
  | .function decl, s => by
    rw [Stmt.locate]
    split
    · exact s.adds_redeclared _ _
    · exact (locateFunction_adds decl _).congr_left (by simp)
  | .classDecl name methods _, s => by
    rw [Stmt.locate]
    split
    · exact s.adds_redeclared _ _
    · have h := locateMethods_adds methods ((s.record name true).enter [("this", true)])
      exact (h.congr_left (by simp)).congr_right (by simp)
  | .block statements _, s =>
    ((locateStatements_adds statements (s.enter [])).congr_left rfl).congr_right rfl
  | .ifThen condition thenBranch _, s =>
    (s.locate_adds condition).trans (thenBranch.locate_adds _)
  | .ifElse condition thenBranch elseBranch _, s =>
    (s.locate_adds condition).trans ((thenBranch.locate_adds _).trans (elseBranch.locate_adds _))
  | .whileLoop condition body _, s => (s.locate_adds condition).trans (body.locate_adds _)
  | .forLoop init condition increment body _, s => by
    have hwalk (s : Scoping) :
        s.Adds (body.locate (((s.locateInit init).2.locate? condition).2.locate? increment).2).2 :=
      (s.locateInit_adds init).trans ((Scoping.locate?_adds _ _).trans
        ((Scoping.locate?_adds _ _).trans (body.locate_adds _)))
    rw [Stmt.locate]
    split
    · exact ((hwalk (s.enter [])).congr_left rfl).congr_right rfl
    · exact hwalk s
  | .loopExit _ _, s => .refl s
  | .returns value _, s => s.locate?_adds value

theorem locateStatements_adds : (statements : List Stmt) → (s : Scoping) →
    s.Adds (locateStatements statements s).2
  | [], s => .refl s
  | first :: rest, s => (first.locate_adds s).trans (locateStatements_adds rest _)

theorem locateFunction_adds : (decl : FunDecl Stmt) → (s : Scoping) →
    s.Adds (locateFunction decl s).2
  | ⟨_, params, body, line, _⟩, s =>
    ((((s.enter []).declareParams_adds line params).trans
      (locateStatements_adds body _)).congr_left rfl).congr_right rfl

theorem locateMethods_adds : (methods : List (FunDecl Stmt)) → (s : Scoping) →
    s.Adds (locateMethods methods s).2
  | [], s => .refl s
  | method :: rest, s => (locateFunction_adds method s).trans (locateMethods_adds rest _)
end

end Lox
