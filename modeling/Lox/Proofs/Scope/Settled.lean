import Lox.Proofs.Lines.Located
import Lox.Proofs.Loops.Alike
import Lox.Proofs.Scope.Filling

/-! A walk of the scopes settles the depths of a program: it leaves as many scopes open as it found,
writes every depth at most once, and a second walk of what it gives finds the same. -/
namespace Lox

/-! A second walk. -/

section
variable (scopes : List Scope)

theorem Occurrence.locate_locate (o : Occurrence) :
    (o.locate scopes).locate scopes = o.locate scopes := by
  cases hd : Scope.distance? o.name scopes with
  | none => simp only [Occurrence.locate, hd]
  | some n => simp only [Occurrence.locate, hd]

theorem Occurrence.locate_fault? (o : Occurrence) (line : Nat) :
    (o.locate scopes).fault? scopes line = o.fault? scopes line := by
  simp only [Occurrence.fault?, Occurrence.locate_name]

mutual
theorem Expr.locate_locate : (e : Expr) → (e.locate scopes).1.locate scopes = e.locate scopes
  | .literal _ _ => rfl
  | .group inner _ | .get inner _ _ => by simp only [Expr.locate, inner.locate_locate]
  | .unary _ right _ => by simp only [Expr.locate, right.locate_locate]
  | .binary left _ right _ => by
    have hl := left.locate_locate
    cases hf : (left.locate scopes).2 with
    | some d => simp only [Expr.locate, hf, hl]
    | none => simp only [Expr.locate, hf, hl, right.locate_locate]
  | .read o line => by
    cases hf : o.fault? scopes line with
    | some d => simp only [Expr.locate, hf]
    | none => simp only [Expr.locate, hf, Occurrence.locate_fault?, Occurrence.locate_locate]
  | .this o _ => by simp only [Expr.locate, Occurrence.locate_locate]
  | .assign target value line => by
    have hv := value.locate_locate
    cases hf : (value.locate scopes).2 with
    | some d => simp only [Expr.locate, hf, hv]
    | none =>
      cases hft : target.fault? scopes line with
      | some d => simp only [Expr.locate, hf, hv, hft]
      | none =>
        simp only [Expr.locate, hf, hv, hft, Occurrence.locate_fault?, Occurrence.locate_locate]
  | .set object _ value _ => by
    have hv := value.locate_locate
    cases hf : (value.locate scopes).2 with
    | some d => simp only [Expr.locate, hf, hv]
    | none => simp only [Expr.locate, hf, hv, object.locate_locate]
  | .call callee arguments _ => by
    have hc := callee.locate_locate
    cases hf : (callee.locate scopes).2 with
    | some d => simp only [Expr.locate, hf, hc]
    | none => simp only [Expr.locate, hf, hc, locateArguments_locateArguments arguments]

theorem locateArguments_locateArguments : (es : List Expr) →
    locateArguments scopes (locateArguments scopes es).1 = locateArguments scopes es
  | [] => rfl
  | e :: rest => by
    have he := e.locate_locate
    cases hf : (e.locate scopes).2 with
    | some d => simp only [locateArguments, hf, he]
    | none => simp only [locateArguments, hf, he, locateArguments_locateArguments rest]
end

end

namespace Scoping

variable (s : Scoping)

theorem locate_locate (e : Expr) : s.locate (s.locate e).1 = s.locate e := by
  cases hf : (e.locate s.scopes).2 <;> simp only [locate, hf, e.locate_locate]

theorem locate?_locate? (e? : Option Expr) : s.locate? (s.locate? e?).1 = s.locate? e? := by
  cases e? with
  | none => rfl
  | some e => simp only [locate?, locate_locate]

theorem locateVar_locateVar (decl : VarDecl) :
    s.locateVar (s.locateVar decl).1 = s.locateVar decl := by
  cases ht : s.isTaken decl.name <;>
    simp only [locateVar, ht, Bool.false_eq_true, if_false, if_true, locate?_locate?]

theorem locateInit_locateInit (init : ForInit) :
    s.locateInit (s.locateInit init).1 = s.locateInit init := by
  cases init with
  | nothing => rfl
  | declare decl => simp only [locateInit, locateVar_locateVar]
  | evaluate e => simp only [locateInit, locate_locate]

theorem locateInit_isDeclaration (init : ForInit) :
    (s.locateInit init).1.isDeclaration = init.isDeclaration := by
  cases init <;> rfl

end Scoping

open Scoping in
mutual
/-- A statement that has been walked is walked the same way once more. -/
theorem Stmt.locate_locate : (stmt : Stmt) → (s : Scoping) →
    (stmt.locate s).1.locate s = stmt.locate s
  | .expression e _, s | .print e _, s => by simp only [Stmt.locate, Scoping.locate_locate]
  | .var decl, s => by simp only [Stmt.locate, locateVar_locateVar]
  | .function decl, s => by
    cases ht : s.isTaken decl.name <;>
      simp only [Stmt.locate, ht, Bool.false_eq_true, if_false, if_true, locateFunction_name,
        locateFunction_locateFunction decl]
  | .classDecl name methods _, s => by
    cases ht : s.isTaken name <;>
      simp only [Stmt.locate, ht, Bool.false_eq_true, if_false, if_true,
        locateMethods_locateMethods methods]
  | .block statements _, s => by
    simp only [Stmt.locate, locateStatements_locateStatements statements]
  | .ifThen condition thenBranch _, s => by
    simp only [Stmt.locate, Scoping.locate_locate, thenBranch.locate_locate]
  | .ifElse condition thenBranch elseBranch _, s => by
    simp only [Stmt.locate, Scoping.locate_locate, thenBranch.locate_locate,
      elseBranch.locate_locate]
  | .whileLoop condition body _, s => by
    simp only [Stmt.locate, Scoping.locate_locate, body.locate_locate]
  | .forLoop init condition increment body _, s => by
    simp only [Stmt.locate, locateInit_isDeclaration, locateInit_locateInit, locate?_locate?,
      body.locate_locate]
  | .loopExit _ _, _ => rfl
  | .returns value _, s => by simp only [Stmt.locate, locate?_locate?]

theorem locateStatements_locateStatements : (statements : List Stmt) → (s : Scoping) →
    locateStatements (locateStatements statements s).1 s = locateStatements statements s
  | [], _ => rfl
  | first :: rest, s => by
    simp only [locateStatements, first.locate_locate, locateStatements_locateStatements rest]

theorem locateFunction_locateFunction : (decl : FunDecl Stmt) → (s : Scoping) →
    locateFunction (locateFunction decl s).1 s = locateFunction decl s
  | ⟨_, params, body, line, _⟩, s => by
    simp only [locateFunction, locateStatements_locateStatements body]

theorem locateMethods_locateMethods : (methods : List (FunDecl Stmt)) → (s : Scoping) →
    locateMethods (locateMethods methods s).1 s = locateMethods methods s
  | [], _ => rfl
  | method :: rest, s => by
    simp only [locateMethods, locateFunction_locateFunction method,
      locateMethods_locateMethods rest]
end

theorem locateProgram_locateProgram (program : List Stmt) :
    locateProgram (locateProgram program).1 = locateProgram program := by
  have h := locateStatements_locateStatements program .start
  simp only [locateProgram, h]

/-! One walk of a program. -/

open DepthWrite (replay)

section
variable (program : List Stmt)

theorem fillProgram_follows :
    Pass.Follows 0 (statementsDepths program) (statementsDepths (locateProgram program).1)
      (locateStatements program .start).2 ⟨.start, statementsDepths program, []⟩
      (fillProgram program) :=
  statementsFill_follows program 0 ⟨.start, statementsDepths program, []⟩

/-- At the end of a program no scope is open. -/
theorem locateStatements_start_scopes : (locateStatements program .start).2.scopes = [] := by
  have hheight : (locateStatements program .start).2.scopes.length = 0 :=
    locateStatements_length program .start
  exact List.length_eq_zero_iff.1 hheight

theorem fillProgram_cells :
    (fillProgram program).cells = statementsDepths (locateProgram program).1 := by
  obtain ⟨htouches, hlength, hholds⟩ := (fillProgram_follows program).refills
  have hnew := hholds fun i _ => by rw [Nat.zero_add]
  refine List.ext_getElem? fun i => ?_
  rcases Nat.lt_or_ge i (statementsDepths (locateProgram program).1).length with hlt | hge
  · simpa using hnew i hlt
  · have hcells : (fillProgram program).cells.length ≤ i := by
      rw [htouches.length_eq]
      exact hlength ▸ hge
    rw [List.getElem?_eq_none hcells, List.getElem?_eq_none hge]

/-- The writes account for all that happens to the cells, and each finds a depth that the program
came with. -/
theorem fillProgram_writes :
    (fillProgram program).cells = replay (fillProgram program).writes (statementsDepths program) ∧
      ((fillProgram program).writes.map DepthWrite.cell).Nodup ∧
        ∀ w ∈ (fillProgram program).writes, ∃ depth ∈ statementsDepths program,
          w.held = some depth := by
  obtain ⟨ws, hwrites, hcells, hnodup, hin⟩ := (fillProgram_follows program).refills.touches
  rw [List.nil_append] at hwrites
  rw [hwrites]
  refine ⟨hcells, hnodup, fun w hw => ?_⟩
  obtain ⟨hcell, hheld⟩ := hin w hw
  have hlt : w.cell < (statementsDepths program).length := by simpa using hcell.2
  exact ⟨_, List.getElem_mem hlt, hheld.trans (List.getElem?_eq_getElem hlt)⟩

end

/-- Whatever is wrong with a program without depths, its walk leaves no scope open, and a statement
leaves as many open as it found, wherever it stands. The walk that writes depths into cells ends
with the same scopes and reports and comes to the same depths by its writes alone; no cell is written
twice, and none that has a depth. What a walk gives back is given back by a second one, with the
same reports. -/
theorem locateProgram_settles {program : List Stmt}
    (h : ∀ depth ∈ statementsDepths program, depth = .global) :
    ((locateStatements program .start).2.scopes = [] ∧
      ∀ (stmt : Stmt) (s : Scoping), (stmt.locate s).2.scopes.length = s.scopes.length) ∧
    ((fillProgram program).toScoping = (locateStatements program .start).2 ∧
      (fillProgram program).cells = statementsDepths (locateProgram program).1) ∧
    ((fillProgram program).cells = replay (fillProgram program).writes (statementsDepths program) ∧
      ((fillProgram program).writes.map DepthWrite.cell).Nodup ∧
      ∀ w ∈ (fillProgram program).writes, w.held = some .global) ∧
    locateProgram (locateProgram program).1 = locateProgram program := by
  obtain ⟨hreplay, hnodup, hheld⟩ := fillProgram_writes program
  refine ⟨⟨locateStatements_start_scopes program, Stmt.locate_length⟩,
    ⟨(fillProgram_follows program).scoping_eq, fillProgram_cells program⟩,
    ⟨hreplay, hnodup, fun w hw => ?_⟩, locateProgram_locateProgram program⟩
  obtain ⟨depth, hmem, hdepth⟩ := hheld w hw
  rw [hdepth, h depth hmem]

/-- A block whose last initializer writes one depth and then stops at its own variable. -/
def stoppedSample : List Stmt :=
  let read (name : String) (line : Nat) : Expr := .read ⟨name, .global⟩ line
  let assigned : Expr := .assign ⟨"a", .global⟩ (read "c" 3) 3
  [.block [
    .var ⟨"a", none, 1⟩,
    .function ⟨"f", ["x"], [.print (.binary (read "x" 2) .or (read "a" 2) 2) 2], 2, 0⟩,
    .var ⟨"b", some (.binary (.binary assigned .or (read "b" 3) 3) .or (read "a" 3) 3), 3⟩] 1]

theorem locateProgram_settles_stopped :
    (∀ depth ∈ statementsDepths stoppedSample, depth = .global) ∧
      (locateProgram stoppedSample).2 = [⟨3, .scope .ownInitializer⟩] ∧
      (locateStatements stoppedSample .start).2.scopes = [] ∧
      (fillProgram stoppedSample).writes =
        [⟨0, some .global, .hops 0⟩, ⟨1, some .global, .hops 1⟩, ⟨2, some .global, .hops 0⟩] ∧
      ((fillProgram stoppedSample).writes.map DepthWrite.cell).Nodup ∧
      locateProgram (locateProgram stoppedSample).1 = locateProgram stoppedSample := by
  have h : ∀ depth ∈ statementsDepths stoppedSample, depth = .global := by decide
  obtain ⟨⟨hscopes, -⟩, -, ⟨-, hnodup, -⟩, hagain⟩ := locateProgram_settles h
  exact ⟨h, by decide, hscopes, by decide, hnodup, hagain⟩

end Lox
