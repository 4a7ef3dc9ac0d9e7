import Lox.Program

/-! Every answer stays the same with more fuel. -/
namespace Lox

variable {α β : Type}

/-- Where the first action has an answer, the second has the same. -/
def Action.Within (x x' : Action Machine α) : Prop := ∀ m, x m ≠ .outOfFuel → x' m = x m

namespace Action.Within

theorem refl (x : Action Machine α) : x.Within x := fun _ _ => rfl

theorem fuelSpent (x : Action Machine α) : (Action.fuelSpent : Action Machine α).Within x :=
  fun _ h => absurd rfl h

theorem trans {x x' x'' : Action Machine α} (h : x.Within x') (h' : x'.Within x'') :
    x.Within x'' := by
  intro m hm
  have hx := h m hm
  exact (h' m (hx ▸ hm)).trans hx

theorem bind {x x' : Action Machine α} {f f' : α → Action Machine β} (hx : x.Within x')
    (hf : ∀ a, (f a).Within (f' a)) : (x >>= f).Within (x' >>= f') := by
  intro m hm
  rw [bind_apply] at hm ⊢
  have hx := hx m fun h => hm (by rw [h])
  rw [hx, bind_apply]
  cases h : x m with
  | done a m' =>
    rw [h] at hm
    exact hf a m' hm
  | failed d m' => rfl
  | outOfFuel => rfl

theorem ite {p : Prop} [Decidable p] {x x' y y' : Action Machine α} (h : x.Within x')
    (h' : y.Within y') : (if p then x else y).Within (if p then x' else y') := by
  split
  · exact h
  · exact h'

theorem inFrame (frame : FrameId) {x x' : Action Machine α} (h : x.Within x') :
    (Machine.inFrame frame x).Within (Machine.inFrame frame x') := by
  intro m hm
  unfold Machine.inFrame at hm ⊢
  rw [h _ fun he => hm (by rw [he])]

theorem inNewFrame {x x' : Action Machine α} (h : x.Within x') :
    (Machine.inNewFrame x).Within (Machine.inNewFrame x') :=
  .bind (.refl _) fun _ => .bind (.refl _) fun frame => h.inFrame frame

theorem asCall (line : Nat) {x x' : Action Machine α} (h : x.Within x') :
    (Machine.asCall line x).Within (Machine.asCall line x') := by
  intro m hm
  unfold Machine.asCall at hm ⊢
  cases hl : m.atLimit with
  | true => rfl
  | false =>
    simp only [hl, Bool.false_eq_true, if_false] at hm ⊢
    rw [h _ fun he => hm (by rw [he])]

end Action.Within

/-- What the evaluations answer at one amount of fuel, they answer with one unit more. -/
structure Steady (fuel : Nat) : Prop where
  evaluate (e : Expr) : (evaluate fuel e).Within (evaluate (fuel + 1) e)
  evaluateAll (es : List Expr) : (evaluateAll fuel es).Within (evaluateAll (fuel + 1) es)
  call (c : Callable) (vs : List Value) (line : Nat) :
    (call fuel c vs line).Within (call (fuel + 1) c vs line)
  callFunction (f : Function) (vs : List Value) (line : Nat) :
    (callFunction fuel f vs line).Within (callFunction (fuel + 1) f vs line)
  execute (s : Stmt) : (execute fuel s).Within (execute (fuel + 1) s)
  declareVar (decl : VarDecl) : (declareVar fuel decl).Within (declareVar (fuel + 1) decl)
  executeAll (statements : List Stmt) :
    (executeAll fuel statements).Within (executeAll (fuel + 1) statements)
  holds (condition : Option Expr) : (holds fuel condition).Within (holds (fuel + 1) condition)
  loop (condition increment : Option Expr) (body : Stmt) :
    (loop fuel condition increment body).Within (loop (fuel + 1) condition increment body)
  step (increment : Option Expr) : (step fuel increment).Within (step (fuel + 1) increment)

namespace Steady

variable {fuel : Nat}

theorem zero : Steady 0 where
  evaluate _ := .fuelSpent _
  evaluateAll _ := .fuelSpent _
  call _ _ _ := .fuelSpent _
  callFunction _ _ _ := .fuelSpent _
  execute _ := .fuelSpent _
  declareVar _ := .fuelSpent _
  executeAll _ := .fuelSpent _
  holds _ := .fuelSpent _
  loop _ _ _ := .fuelSpent _
  step _ := .fuelSpent _

theorem evaluate_succ (ih : Steady fuel) (e : Expr) :
    (Lox.evaluate (fuel + 1) e).Within (Lox.evaluate (fuel + 2) e) := by
  cases e with
  | literal value line => exact .refl _
  | group inner line => exact ih.evaluate inner
  | unary op right line => exact .bind (ih.evaluate right) fun v => .refl _
  | binary left op right line =>
    refine .bind (ih.evaluate left) fun v => ?_
    cases op.settled? v with
    | some settled => exact .refl _
    | none => exact .bind (ih.evaluate right) fun w => .refl _
  | read o line => exact .refl _
  | this o line => exact .refl _
  | assign target value line => exact .bind (ih.evaluate value) fun v => .refl _
  | get object name line => exact .bind (ih.evaluate object) fun v => .refl _
  | set object name value line =>
    refine .bind (ih.evaluate object) fun v => ?_
    cases v with
    | object id => exact .bind (ih.evaluate value) fun v => .refl _
    | _ => exact .refl _
  | call callee arguments line =>
    refine .bind (ih.evaluate callee) fun f => ?_
    cases f.callable? with
    | none => exact .refl _
    | some c =>
      exact .bind (.refl _) fun arity => .ite (.refl _)
        (.bind (ih.evaluateAll arguments) fun vs => ih.call c vs line)

theorem evaluateAll_succ (ih : Steady fuel) (es : List Expr) :
    (Lox.evaluateAll (fuel + 1) es).Within (Lox.evaluateAll (fuel + 2) es) := by
  cases es with
  | nil => exact .refl _
  | cons e rest =>
    exact .bind (ih.evaluate e) fun v => .bind (ih.evaluateAll rest) fun vs => .refl _

theorem call_succ (ih : Steady fuel) (c : Callable) (vs : List Value) (line : Nat) :
    (Lox.call (fuel + 1) c vs line).Within (Lox.call (fuel + 2) c vs line) := by
  cases c with
  | native n => exact .refl _
  | function id => exact .asCall line (.bind (.refl _) fun f => ih.callFunction f vs line)
  | classObject id =>
    refine .asCall line (.bind (.refl _) fun receiver => .bind (.refl _) fun method? => ?_)
    cases method? with
    | none => exact .refl _
    | some method =>
      exact .bind (.refl _) fun bound => .bind (.refl _) fun f =>
        .bind (ih.callFunction f vs line) fun _ => .refl _

theorem callFunction_succ (ih : Steady fuel) (f : Function) (vs : List Value) (line : Nat) :
    (Lox.callFunction (fuel + 1) f vs line).Within (Lox.callFunction (fuel + 2) f vs line) :=
  .bind (.refl _) fun frame => .bind (.refl _) fun _ =>
    .bind ((ih.executeAll f.decl.body).inFrame frame) fun _ => .refl _

theorem execute_succ (ih : Steady fuel) (s : Stmt) :
    (Lox.execute (fuel + 1) s).Within (Lox.execute (fuel + 2) s) := by
  cases s with
  | expression e line => exact .bind (ih.evaluate e) fun _ => .refl _
  | print e line => exact .bind (ih.evaluate e) fun v => .refl _
  | var decl => exact .bind (ih.declareVar decl) fun _ => .refl _
  | function decl => exact .refl _
  | classDecl name methods line => exact .refl _
  | block statements line => exact (ih.executeAll statements).inNewFrame
  | ifThen condition thenBranch line =>
    exact .bind (ih.evaluate condition) fun v => .ite (ih.execute thenBranch) (.refl _)
  | ifElse condition thenBranch elseBranch line =>
    exact .bind (ih.evaluate condition) fun v =>
      .ite (ih.execute thenBranch) (ih.execute elseBranch)
  | whileLoop condition body line => exact ih.loop (some condition) none body
  | forLoop init condition increment body line =>
    have hloop := ih.loop condition increment body
    cases init with
    | nothing => exact hloop
    | declare decl => exact .inNewFrame (.bind (ih.declareVar decl) fun _ => hloop)
    | evaluate e => exact .bind (ih.evaluate e) fun _ => hloop
  | loopExit exit line => exact .refl _
  | returns value line =>
    cases value with
    | none => exact .refl _
    | some e => exact .bind (ih.evaluate e) fun v => .refl _

theorem declareVar_succ (ih : Steady fuel) (decl : VarDecl) :
    (Lox.declareVar (fuel + 1) decl).Within (Lox.declareVar (fuel + 2) decl) := by
  rcases decl with ⟨name, init, line⟩
  cases init with
  | none => exact .refl _
  | some e => exact .bind (ih.evaluate e) fun v => .refl _

theorem executeAll_succ (ih : Steady fuel) (statements : List Stmt) :
    (Lox.executeAll (fuel + 1) statements).Within (Lox.executeAll (fuel + 2) statements) := by
  cases statements with
  | nil => exact .refl _
  | cons s rest =>
    refine .bind (ih.execute s) fun signal => ?_
    cases signal with
    | normal => exact ih.executeAll rest
    | _ => exact .refl _

theorem holds_succ (ih : Steady fuel) (condition : Option Expr) :
    (Lox.holds (fuel + 1) condition).Within (Lox.holds (fuel + 2) condition) := by
  cases condition with
  | none => exact .refl _
  | some e => exact .bind (ih.evaluate e) fun v => .refl _

theorem loop_succ (ih : Steady fuel) (condition increment : Option Expr) (body : Stmt) :
    (Lox.loop (fuel + 1) condition increment body).Within
      (Lox.loop (fuel + 2) condition increment body) := by
  have hround := (ih.step increment).bind fun _ => ih.loop condition increment body
  refine .bind (ih.holds condition) fun b => .ite (.bind (ih.execute body) fun signal => ?_)
    (.refl _)
  cases signal with
  | normal => exact hround
  | returned v => exact .refl _
  | exit e =>
    cases e with
    | toEnd => exact .refl _
    | toNext => exact hround

theorem step_succ (ih : Steady fuel) (increment : Option Expr) :
    (Lox.step (fuel + 1) increment).Within (Lox.step (fuel + 2) increment) := by
  cases increment with
  | none => exact .refl _
  | some e => exact .bind (ih.evaluate e) fun _ => .refl _

end Steady

theorem steady (fuel : Nat) : Steady fuel := by
  induction fuel with
  | zero => exact .zero
  | succ fuel ih =>
    exact {
      evaluate := ih.evaluate_succ
      evaluateAll := ih.evaluateAll_succ
      call := ih.call_succ
      callFunction := ih.callFunction_succ
      execute := ih.execute_succ
      declareVar := ih.declareVar_succ
      executeAll := ih.executeAll_succ
      holds := ih.holds_succ
      loop := ih.loop_succ
      step := ih.step_succ }

namespace Machine

variable {fuel fuel' : Nat}

theorem executeProgram_within (h : fuel ≤ fuel') (program : List Stmt) :
    (executeProgram fuel program).Within (executeProgram fuel' program) := by
  induction h with
  | refl => exact .refl _
  | @step fuel' _ ih =>
    refine ih.trans ?_
    clear ih
    induction program with
    | nil => exact .refl _
    | cons s rest ih =>
      refine .bind ((steady fuel').execute s) fun signal => ?_
      cases signal with
      | normal => exact ih
      | _ => exact .refl _

theorem interpret_of_le (h : fuel ≤ fuel') {program : List Stmt} {m : Machine}
    {r : Option Diagnostic × Machine} (hr : m.interpret fuel program = some r) :
    m.interpret fuel' program = some r := by
  have hwithin := executeProgram_within h program m
  unfold Machine.interpret at hr ⊢
  rw [hwithin fun he => by rw [he] at hr; cases hr]
  exact hr

/-- A run that ends does so in the same way with any larger amount of fuel. -/
theorem run_of_le (h : fuel ≤ fuel') {source : String} {m : Machine}
    {r : Option Failure × Machine} (hr : m.run fuel source = some r) :
    m.run fuel' source = some r := by
  refine run_eq_some.2 ((run_eq_some.1 hr).imp_right ?_)
  rintro ⟨program, d?, hc, hlast, he⟩
  exact ⟨program, d?, hc, interpret_of_le h hlast, he⟩

end Machine
end Lox
