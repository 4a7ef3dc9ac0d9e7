import Lox.Proofs.Scope.Violations

/-! The programs that the walk of the scopes accepts, told from the names that each local scope of the
program is given and from the local variables in it. -/
namespace Lox

open Violation

mutual
/-- The names that each local scope inside a statement is given. The scope around the statement is
none of these. -/
def Stmt.localScopes : Stmt → List (List String)
  | .function decl => functionScopes decl
  | .classDecl _ methods _ => methodsScopes methods
  | .block statements _ => statementsDeclared statements :: statementsScopes statements
  | .ifThen _ thenBranch _ => thenBranch.localScopes
  | .ifElse _ thenBranch elseBranch _ => thenBranch.localScopes ++ elseBranch.localScopes
  | .whileLoop _ body _ => body.localScopes
  | .forLoop (.declare decl) _ _ body _ => (decl.name :: body.declared) :: body.localScopes
  | .forLoop _ _ _ body _ => body.localScopes
  | .var _ | .expression _ _ | .print _ _ | .loopExit _ _ | .returns _ _ => []

def statementsScopes : List Stmt → List (List String)
  | [] => []
  | s :: rest => s.localScopes ++ statementsScopes rest

/-- The parameters of a function share the scope of its body. -/
def functionScopes : FunDecl Stmt → List (List String)
  | ⟨_, params, body, _, _⟩ => (params ++ statementsDeclared body) :: statementsScopes body

def methodsScopes : List (FunDecl Stmt) → List (List String)
  | [] => []
  | d :: rest => functionScopes d ++ methodsScopes rest
end

mutual
/-- The variables that a statement declares in local scopes; `inside` tells whether the scope around
it is one. -/
def Stmt.localVars (inside : Bool) : Stmt → List VarDecl
  | .var decl => if inside then [decl] else []
  | .function decl => functionVars decl
  | .classDecl _ methods _ => methodsVars methods
  | .block statements _ => statementsVars true statements
  | .ifThen _ thenBranch _ => thenBranch.localVars inside
  | .ifElse _ thenBranch elseBranch _ =>
    thenBranch.localVars inside ++ elseBranch.localVars inside
  | .whileLoop _ body _ => body.localVars inside
  | .forLoop (.declare decl) _ _ body _ => decl :: body.localVars true
  | .forLoop _ _ _ body _ => body.localVars inside
  | .expression _ _ | .print _ _ | .loopExit _ _ | .returns _ _ => []

def statementsVars (inside : Bool) : List Stmt → List VarDecl
  | [] => []
  | s :: rest => s.localVars inside ++ statementsVars inside rest

def functionVars : FunDecl Stmt → List VarDecl
  | ⟨_, _, body, _, _⟩ => statementsVars true body

def methodsVars : List (FunDecl Stmt) → List VarDecl
  | [] => []
  | d :: rest => functionVars d ++ methodsVars rest
end

/-- The local scopes of a program. Its own names are global and belong to none. -/
def programScopes (program : List Stmt) : List (List String) := statementsScopes program

def programVars (program : List Stmt) : List VarDecl := statementsVars false program

/-- The variable is neither read nor assigned in its own initializer. -/
def VarDecl.Apart (decl : VarDecl) : Prop :=
  ∀ u ∈ optionalUses decl.initializer, u.name ≠ decl.name

/-- The scope around, if there is one, has no name twice when it is given these. -/
def Fits (here : Option (List String)) (names : List String) : Prop :=
  ∀ earlier ∈ here, (earlier ++ names).Nodup

theorem fits_none (names : List String) : Fits none names := by simp [Fits]

/-- A new scope. -/
theorem fits_new : Fits (some []) [] := by simp [Fits]

theorem fits_append (here : Option (List String)) (names names' : List String) :
    Fits here (names ++ names') ↔ Fits here names ∧ Fits (here.map (· ++ names)) names' := by
  cases here with
  | none => simp [Fits]
  | some earlier =>
    simp only [Fits, Option.map_some, Option.mem_def, Option.some.injEq, forall_eq',
      List.append_assoc, iff_and_self]
    intro h
    exact h.sublist (List.append_sublist_append_left earlier |>.2 (List.sublist_append_left _ _))

/-- Code that may follow the names of `here`: what it declares there, the scopes inside it, and the
local variables. -/
structure Acceptable (here : Option (List String)) (names : List String)
    (scopes : List (List String)) (vars : List VarDecl) : Prop where
  fits : Fits here names
  scopes : ∀ scope ∈ scopes, scope.Nodup
  vars : ∀ decl ∈ vars, decl.Apart

namespace Acceptable

variable {here : Option (List String)} {names names' : List String}
  {scopes scopes' : List (List String)} {vars vars' : List VarDecl}

theorem append_iff : Acceptable here (names ++ names') (scopes ++ scopes') (vars ++ vars') ↔
    Acceptable here names scopes vars ∧
      Acceptable (here.map (· ++ names)) names' scopes' vars' := by
  constructor
  · rintro ⟨hn, hs, hv⟩
    rw [fits_append] at hn
    rw [List.forall_mem_append] at hs hv
    exact ⟨⟨hn.1, hs.1, hv.1⟩, ⟨hn.2, hs.2, hv.2⟩⟩
  · rintro ⟨⟨hn, hs, hv⟩, hn', hs', hv'⟩
    refine ⟨(fits_append ..).2 ⟨hn, hn'⟩, ?_, ?_⟩
    · exact List.forall_mem_append.2 ⟨hs, hs'⟩
    · exact List.forall_mem_append.2 ⟨hv, hv'⟩

/-- A scope of its own. -/
theorem scope_iff (h : Fits here []) :
    Acceptable here [] ((names ++ names') :: scopes) vars ↔
      Acceptable (some names) names' scopes vars := by
  constructor
  · rintro ⟨-, hs, hv⟩
    rw [List.forall_mem_cons] at hs
    exact ⟨by simpa [Fits] using hs.1, hs.2, hv⟩
  · rintro ⟨hn, hs, hv⟩
    exact ⟨h, List.forall_mem_cons.2 ⟨by simpa [Fits] using hn, hs⟩, hv⟩

end Acceptable

theorem Fits.nothing {here : Option (List String)} (h : Fits here []) :
    Acceptable here [] [] [] where
  fits := h
  scopes := by simp
  vars := by simp

theorem Fits.after {here : Option (List String)} {names : List String} (h : Fits here names) :
    Fits (here.map (· ++ names)) [] := by
  rw [← List.append_nil names, fits_append] at h
  exact h.2

theorem Fits.one_iff {here : Option (List String)} (h : Fits here []) (name : String) :
    Fits here [name] ↔ here.any (·.contains name) = false := by
  cases here with
  | none => simp [Fits]
  | some earlier =>
    have hnodup : earlier.Nodup := by simpa [Fits] using h
    have hone : (earlier ++ [name]).Nodup ↔ name ∉ earlier := by
      rw [List.perm_append_comm.nodup_iff, List.singleton_append, List.nodup_cons]
      exact and_iff_left hnodup
    simp [Fits, hone]

theorem VarDecl.ownUses_eq_nil (decl : VarDecl) : decl.ownUses = [] ↔ decl.Apart := by
  simp [VarDecl.ownUses, VarDecl.Apart]

theorem reported_leading_eq_nil (ds : List Diagnostic) : reported (leading ds) = [] ↔ ds = [] := by
  rw [reported_leading]
  cases ds <;> simp

theorem VarDecl.reported_eq_nil {here : Option (List String)} (h : Fits here [])
    (decl : VarDecl) : reported (decl.violations here) = [] ↔
      Acceptable here [decl.name] [] (if here.isSome then [decl] else []) := by
  rw [VarDecl.violations, reported_ofDeclaration_eq_nil, ← h.one_iff]
  constructor
  · rintro ⟨hfits, hown⟩
    refine ⟨hfits, by simp, ?_⟩
    cases here with
    | none => simp
    | some earlier =>
      simpa [reported_leading_eq_nil, VarDecl.ownUses_eq_nil] using hown
  · rintro ⟨hfits, -, hvars⟩
    refine ⟨hfits, ?_⟩
    cases here with
    | none => rfl
    | some earlier =>
      simpa [reported_leading_eq_nil, VarDecl.ownUses_eq_nil] using hvars

theorem reported_paramViolations_eq_nil (line : Nat) {earlier : List String}
    (h : Fits (some earlier) []) (params : List String) :
    reported (paramViolations line earlier params) = [] ↔ Fits (some earlier) params := by
  induction params generalizing earlier with
  | nil => simp [paramViolations, h]
  | cons name rest ih =>
    have hsplit := fits_append (some earlier) [name] rest
    rw [List.singleton_append] at hsplit
    rw [paramViolations, reported_append, List.append_eq_nil_iff, hsplit,
      reported_ofDeclaration_eq_nil, ← h.one_iff]
    simp only [reported_nil, and_true]
    exact and_congr_right fun hfits => ih hfits.after

mutual
/-- Behind names that are accepted, a statement has no fault exactly if it is acceptable. -/
theorem Stmt.reported_eq_nil {here : Option (List String)} : (stmt : Stmt) → Fits here [] →
    (reported (stmt.violations here) = [] ↔
      Acceptable here stmt.declared stmt.localScopes (stmt.localVars here.isSome))
  | .expression _ _, h | .print _ _, h | .loopExit _ _, h | .returns _ _, h =>
    iff_of_true rfl h.nothing
  | .var decl, h => decl.reported_eq_nil h
  | .function decl, h => by
    simp only [Stmt.violations, Stmt.declared, Stmt.localScopes, Stmt.localVars]
    rw [reported_ofDeclaration_eq_nil, ← h.one_iff, functionReported_eq_nil decl]
    exact ⟨fun ⟨hf, _, hs, hv⟩ => ⟨hf, hs, hv⟩, fun ⟨hf, hs, hv⟩ => ⟨hf, fits_none _, hs, hv⟩⟩
  | .classDecl name methods _, h => by
    simp only [Stmt.violations, Stmt.declared, Stmt.localScopes, Stmt.localVars]
    rw [reported_ofDeclaration_eq_nil, ← h.one_iff, methodsReported_eq_nil methods]
    exact ⟨fun ⟨hf, _, hs, hv⟩ => ⟨hf, hs, hv⟩, fun ⟨hf, hs, hv⟩ => ⟨hf, fits_none _, hs, hv⟩⟩
  | .block statements _, h => by
    have hin := statementsReported_eq_nil statements fits_new
    rw [← Acceptable.scope_iff h] at hin
    exact hin
  | .ifThen _ thenBranch _, h | .whileLoop _ thenBranch _, h => thenBranch.reported_eq_nil h
  | .ifElse _ thenBranch elseBranch _, h => by
    have helse (hf : Fits (here.map (· ++ thenBranch.declared)) []) :=
      elseBranch.reported_eq_nil hf
    simp only [Option.isSome_map] at helse
    simp only [Stmt.violations, Stmt.declared, Stmt.localScopes, Stmt.localVars, reported_append,
      List.append_eq_nil_iff, Acceptable.append_iff, thenBranch.reported_eq_nil h]
    exact and_congr_right fun hthen => helse hthen.fits.after
  | .forLoop (.declare decl) _ _ body _, h => by
    have hname : Fits (some [decl.name]) [] := by simp [Fits]
    have hin : Acceptable (some []) ([decl.name] ++ body.declared) ([] ++ body.localScopes)
        ([decl] ++ body.localVars true) ↔ _ := Acceptable.append_iff
    rw [← Acceptable.scope_iff h] at hin
    simp only [Stmt.violations, ForInit.violations, ForInit.here, reported_append,
      List.append_eq_nil_iff, decl.reported_eq_nil fits_new, body.reported_eq_nil hname]
    exact hin.symm
  | .forLoop .nothing _ _ body _, h | .forLoop (.evaluate _) _ _ body _, h =>
    body.reported_eq_nil h

theorem statementsReported_eq_nil {here : Option (List String)} : (statements : List Stmt) →
    Fits here [] → (reported (statementsViolations here statements) = [] ↔
      Acceptable here (statementsDeclared statements) (statementsScopes statements)
        (statementsVars here.isSome statements))
  | [], h => iff_of_true rfl h.nothing
  | first :: rest, h => by
    have hrest (hf : Fits (here.map (· ++ first.declared)) []) :=
      statementsReported_eq_nil rest hf
    simp only [Option.isSome_map] at hrest
    simp only [statementsViolations, statementsDeclared, statementsScopes, statementsVars,
      List.flatMap_cons, reported_append, List.append_eq_nil_iff, Acceptable.append_iff,
      first.reported_eq_nil h]
    exact and_congr_right fun hfirst => hrest hfirst.fits.after

theorem functionReported_eq_nil : (decl : FunDecl Stmt) →
    (reported (functionViolations decl) = [] ↔
      Acceptable none [] (functionScopes decl) (functionVars decl))
  | ⟨_, params, body, line, _⟩ => by
    have hparams := reported_paramViolations_eq_nil line fits_new params
    have hstart : Fits (some []) params ↔ Fits (some params) [] := by simp [Fits]
    simp only [functionViolations, functionScopes, functionVars, reported_append,
      List.append_eq_nil_iff, hparams, hstart]
    rw [Acceptable.scope_iff (fits_none _)]
    constructor
    · rintro ⟨hfits, hin⟩
      exact (statementsReported_eq_nil body hfits).1 hin
    · intro hin
      have hfits : Fits (some params) [] :=
        ((fits_append (some params) [] _).1 hin.fits).1
      exact ⟨hfits, (statementsReported_eq_nil body hfits).2 hin⟩

theorem methodsReported_eq_nil : (methods : List (FunDecl Stmt)) →
    (reported (methodsViolations methods) = [] ↔
      Acceptable none [] (methodsScopes methods) (methodsVars methods))
  | [] => iff_of_true rfl (fits_none _).nothing
  | d :: rest => by
    have hboth : Acceptable none ([] ++ []) (functionScopes d ++ methodsScopes rest)
        (functionVars d ++ methodsVars rest) ↔ _ := Acceptable.append_iff
    simp only [methodsViolations, reported_append, List.append_eq_nil_iff,
      functionReported_eq_nil d, methodsReported_eq_nil rest]
    exact hboth.symm
end

theorem statementsViolations_none_append (program more : List Stmt) :
    statementsViolations none (program ++ more) =
      statementsViolations none program ++ statementsViolations none more := by
  induction program with
  | nil => rfl
  | cons s rest ih =>
    simp only [List.cons_append, statementsViolations, Option.map_none, ih, List.append_assoc]

/-- A program is accepted exactly if no local scope is given a name twice and no local variable is
used in its own initializer. At top level it does not count which names there are already, and a
variable may use itself. -/
theorem locateProgram_accepts_iff (program : List Stmt) :
    ((locateProgram program).2 = [] ↔
      (∀ scope ∈ programScopes program, scope.Nodup) ∧
        ∀ decl ∈ programVars program, ∀ u ∈ optionalUses decl.initializer, u.name ≠ decl.name) ∧
    (∀ s, (locateProgram (program ++ [s])).2 = (locateProgram program).2 ++ (locateProgram [s]).2) ∧
    ∀ decl, (locateProgram [.var decl]).2 = [] := by
  refine ⟨?_, fun s => ?_, fun decl => ?_⟩
  · rw [locateProgram_reports, programViolations, statementsReported_eq_nil program (fits_none [])]
    exact ⟨fun ⟨_, hs, hv⟩ => ⟨hs, hv⟩, fun ⟨hs, hv⟩ => ⟨fits_none _, hs, hv⟩⟩
  · simp only [locateProgram_reports, programViolations, statementsViolations_none_append,
      reported_append]
  · rw [locateProgram_reports]
    rfl

end Lox
