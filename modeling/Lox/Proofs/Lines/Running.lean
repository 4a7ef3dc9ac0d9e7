import Lox.Program
import Lox.Proofs.Lines.Machines

/-! Code with other lines does the same, and fails at the other lines. -/
namespace Lox

open Lox.Action (Relines)

/-- What the evaluations at one amount of fuel do with code that has other lines. -/
structure EvaluationsRelined (φ : Nat → Nat) (fuel : Nat) : Prop where
  evaluate (e : Expr) : Relines φ (evaluate fuel e) (evaluate fuel (e.relined φ))
  evaluateAll (es : List Expr) :
    Relines φ (evaluateAll fuel es) (evaluateAll fuel (argumentsRelined φ es))
  call (c : Callable) (vs : List Value) (line : Nat) :
    Relines φ (call fuel c vs line) (call fuel c vs (φ line))
  callFunction (f : Function) (vs : List Value) (line : Nat) :
    Relines φ (callFunction fuel f vs line) (callFunction fuel (f.relined φ) vs (φ line))
  execute (s : Stmt) : Relines φ (execute fuel s) (execute fuel (s.relined φ))
  declareVar (decl : VarDecl) :
    Relines φ (declareVar fuel decl) (declareVar fuel (decl.relined φ))
  executeAll (statements : List Stmt) :
    Relines φ (executeAll fuel statements) (executeAll fuel (statementsRelined φ statements))
  holds (condition : Option Expr) :
    Relines φ (holds fuel condition) (holds fuel (condition.map (Expr.relined φ)))
  loop (condition increment : Option Expr) (body : Stmt) :
    Relines φ (loop fuel condition increment body)
      (loop fuel (condition.map (Expr.relined φ)) (increment.map (Expr.relined φ))
        (body.relined φ))
  step (increment : Option Expr) :
    Relines φ (step fuel increment) (step fuel (increment.map (Expr.relined φ)))

namespace EvaluationsRelined

variable {φ : Nat → Nat} {fuel : Nat}

theorem zero : EvaluationsRelined φ 0 where
  evaluate _ := .fuelSpent
  evaluateAll _ := .fuelSpent
  call _ _ _ := .fuelSpent
  callFunction _ _ _ := .fuelSpent
  execute _ := .fuelSpent
  declareVar _ := .fuelSpent
  executeAll _ := .fuelSpent
  holds _ := .fuelSpent
  loop _ _ _ := .fuelSpent
  step _ := .fuelSpent

theorem evaluate_succ (h0 : φ 0 = 0) (ih : EvaluationsRelined φ fuel) (e : Expr) :
    Relines φ (Lox.evaluate (fuel + 1) e) (Lox.evaluate (fuel + 1) (e.relined φ)) := by
  cases e with
  | literal value line => exact .pure _
  | group inner line => exact ih.evaluate inner
  | unary op right line => exact .bind (ih.evaluate right) fun v => .lift line _
  | binary left op right line =>
    refine .bind (ih.evaluate left) fun v => ?_
    cases op.settled? v with
    | some settled => exact .pure settled
    | none => exact .bind (ih.evaluate right) fun w => .finish op v w line
  | read o line => exact .read o line
  | this o line => exact .read o line
  | assign target value line =>
    exact .bind (ih.evaluate value) fun v => .bind (.write target v line) fun _ => .pure v
  | get object name line =>
    refine .bind (ih.evaluate object) fun v => ?_
    cases v with
    | object id => exact .property h0 id name line
    | _ => exact .failRuntime line _
  | set object name value line =>
    refine .bind (ih.evaluate object) fun v => ?_
    cases v with
    | object id =>
      exact .bind (ih.evaluate value) fun v => .bind (.setField id name v) fun _ => .pure v
    | _ => exact .failRuntime line _
  | call callee arguments line =>
    refine .bind (ih.evaluate callee) fun f => ?_
    cases f.callable? with
    | none => exact .failRuntime line _
    | some c =>
      refine .inspect (fun m => c.arity_relined h0 m.heap) fun arity => ?_
      rw [argumentsRelined_length]
      exact .ite (.failRuntime line _)
        (.bind (ih.evaluateAll arguments) fun vs => ih.call c vs line)

theorem evaluateAll_succ (ih : EvaluationsRelined φ fuel) (es : List Expr) :
    Relines φ (Lox.evaluateAll (fuel + 1) es)
      (Lox.evaluateAll (fuel + 1) (argumentsRelined φ es)) := by
  cases es with
  | nil => exact .pure _
  | cons e rest =>
    exact .bind (ih.evaluate e) fun v => .bind (ih.evaluateAll rest) fun vs => .pure _

theorem call_succ (h0 : φ 0 = 0) (ih : EvaluationsRelined φ fuel) (c : Callable)
    (vs : List Value) (line : Nat) :
    Relines φ (Lox.call (fuel + 1) c vs line) (Lox.call (fuel + 1) c vs (φ line)) := by
  cases c with
  | native n => exact .asCall line .tick
  | function id =>
    -- The function that is looked up has other lines itself.
    refine .asCall line (.look fun m => ?_)
    simp only [Machine.relined_heap, Heap.relined_function h0]
    exact ih.callFunction _ vs line
  | classObject id =>
    refine .asCall line (.bind (.allocate fun _ => rfl) fun receiver =>
      .inspect (fun _ => rfl) fun method? => ?_)
    cases method? with
    | none => exact .pure _
    | some method =>
      refine .bind (.allocate fun h => h.relined_bindMethod h0 method receiver) fun bound =>
        .look fun m => ?_
      simp only [Machine.relined_heap, Heap.relined_function h0]
      exact .bind (ih.callFunction _ vs line) fun _ => .pure _

theorem callFunction_succ (h0 : φ 0 = 0) (ih : EvaluationsRelined φ fuel) (f : Function)
    (vs : List Value) (line : Nat) :
    Relines φ (Lox.callFunction (fuel + 1) f vs line)
      (Lox.callFunction (fuel + 1) (f.relined φ) vs (φ line)) := by
  rcases f with ⟨⟨name, params, body, declared, site⟩, closure⟩
  refine .bind (.allocate fun _ => rfl) fun frame => .bind (.defineAll frame _) fun _ =>
    .bind ((ih.executeAll body).inFrame frame) fun signal => ?_
  cases signal with
  | normal => exact .pure _
  | returned v => exact .pure v
  | exit e =>
    exact .inspect (fun m => Signal.description_relined h0 m.heap _) fun text => .fail line _

theorem execute_succ (h0 : φ 0 = 0) (ih : EvaluationsRelined φ fuel) (s : Stmt) :
    Relines φ (Lox.execute (fuel + 1) s) (Lox.execute (fuel + 1) (s.relined φ)) := by
  cases s with
  | expression e line => exact .bind (ih.evaluate e) fun _ => .pure _
  | print e line =>
    exact .bind (ih.evaluate e) fun v => .inspect (fun m => v.text_relined h0 m.heap) fun text =>
      .bind (.print h0 text) fun _ => .pure _
  | var decl => exact .bind (ih.declareVar decl) fun _ => .pure _
  | function decl =>
    rcases decl with ⟨name, params, body, line, site⟩
    exact .inspect (fun _ => rfl) fun frame =>
      .bind (.allocate fun h => h.relined_addFunction φ ⟨_, frame⟩) fun id =>
        .bind (.define _ _ line) fun _ => .pure _
  | classDecl name methods line =>
    exact .bind (.define _ _ line) fun _ => .inspect (fun _ => rfl) fun frame =>
      .bind (.allocate fun h => h.relined_addMethods φ frame methods []) fun table =>
        .bind (.allocate fun _ => rfl) fun id => .bind (.assignHere _ _) fun _ => .pure _
  | block statements line => exact (ih.executeAll statements).inNewFrame
  | ifThen condition thenBranch line =>
    exact .bind (ih.evaluate condition) fun v => .ite (ih.execute thenBranch) (.pure _)
  | ifElse condition thenBranch elseBranch line =>
    exact .bind (ih.evaluate condition) fun v =>
      .ite (ih.execute thenBranch) (ih.execute elseBranch)
  | whileLoop condition body line => exact ih.loop (some condition) none body
  | forLoop init condition increment body line =>
    have hloop := ih.loop condition increment body
    cases init with
    | nothing => exact hloop
    | declare decl => exact .inNewFrame (.bind (ih.declareVar decl) fun _ => hloop)
    | evaluate e => exact .bind (ih.evaluate e) fun _ => hloop
  | loopExit exit line => exact .pure _
  | returns value line =>
    cases value with
    | none => exact .pure _
    | some e => exact .bind (ih.evaluate e) fun v => .pure _

theorem declareVar_succ (ih : EvaluationsRelined φ fuel) (decl : VarDecl) :
    Relines φ (Lox.declareVar (fuel + 1) decl) (Lox.declareVar (fuel + 1) (decl.relined φ)) := by
  rcases decl with ⟨name, init, line⟩
  cases init with
  | none => exact .define name .nil line
  | some e => exact .bind (ih.evaluate e) fun v => .define name v line

theorem executeAll_succ (ih : EvaluationsRelined φ fuel) (statements : List Stmt) :
    Relines φ (Lox.executeAll (fuel + 1) statements)
      (Lox.executeAll (fuel + 1) (statementsRelined φ statements)) := by
  cases statements with
  | nil => exact .pure _
  | cons s rest =>
    refine .bind (ih.execute s) fun signal => ?_
    cases signal with
    | normal => exact ih.executeAll rest
    | _ => exact .pure _

theorem holds_succ (ih : EvaluationsRelined φ fuel) (condition : Option Expr) :
    Relines φ (Lox.holds (fuel + 1) condition)
      (Lox.holds (fuel + 1) (condition.map (Expr.relined φ))) := by
  cases condition with
  | none => exact .pure true
  | some e => exact .bind (ih.evaluate e) fun v => .pure v.isTruthy

theorem loop_succ (ih : EvaluationsRelined φ fuel) (condition increment : Option Expr)
    (body : Stmt) :
    Relines φ (Lox.loop (fuel + 1) condition increment body)
      (Lox.loop (fuel + 1) (condition.map (Expr.relined φ)) (increment.map (Expr.relined φ))
        (body.relined φ)) := by
  have hround := (ih.step increment).bind fun _ => ih.loop condition increment body
  refine .bind (ih.holds condition) fun b => .ite (.bind (ih.execute body) fun signal => ?_)
    (.pure _)
  cases signal with
  | normal => exact hround
  | returned v => exact .pure _
  | exit e =>
    cases e with
    | toEnd => exact .pure _
    | toNext => exact hround

theorem step_succ (ih : EvaluationsRelined φ fuel) (increment : Option Expr) :
    Relines φ (Lox.step (fuel + 1) increment)
      (Lox.step (fuel + 1) (increment.map (Expr.relined φ))) := by
  cases increment with
  | none => exact .pure ()
  | some e => exact .bind (ih.evaluate e) fun _ => .pure ()

end EvaluationsRelined

variable {φ : Nat → Nat}

theorem evaluationsRelined (h0 : φ 0 = 0) (fuel : Nat) : EvaluationsRelined φ fuel := by
  induction fuel with
  | zero => exact .zero
  | succ fuel ih =>
    exact {
      evaluate := ih.evaluate_succ h0
      evaluateAll := ih.evaluateAll_succ
      call := ih.call_succ h0
      callFunction := ih.callFunction_succ h0
      execute := ih.execute_succ h0
      declareVar := ih.declareVar_succ
      executeAll := ih.executeAll_succ
      holds := ih.holds_succ
      loop := ih.loop_succ
      step := ih.step_succ }

theorem executeProgram_relined (h0 : φ 0 = 0) (fuel : Nat) (program : List Stmt) :
    Relines φ (Machine.executeProgram fuel program)
      (Machine.executeProgram fuel (statementsRelined φ program)) := by
  induction program with
  | nil => exact .pure ()
  | cons s rest ih =>
    refine .bind ((evaluationsRelined h0 fuel).execute s) fun signal => ?_
    cases signal with
    | normal => exact ih
    | _ =>
      refine .inspect (fun m => Signal.description_relined h0 m.heap _) fun text => ?_
      rw [Stmt.relined_line]
      exact .fail _ _

/-- A program with other lines comes to the same, at the other lines. -/
theorem interpret_relined (h0 : φ 0 = 0) (fuel : Nat) (program : List Stmt) (m : Machine) :
    (m.relined φ).interpret fuel (statementsRelined φ program) =
      (m.interpret fuel program).map fun r => (r.1.map (Diagnostic.relined φ), r.2.relined φ) := by
  have h := executeProgram_relined h0 fuel program m
  unfold Machine.interpret
  rw [h]
  cases Machine.executeProgram fuel program m <;> rfl

end Lox
