import Lox.Proofs.Calls.Limit

/-! The limit on calls only cuts off runs that nest too deep. -/
namespace Lox

open Watch (Limits)

/-- What the evaluations at one amount of fuel do with a limit and without. -/
structure CallsLimited (limit : Option Nat) (fuel : Nat) : Prop where
  evaluate (e : Expr) : (Watched.evaluate fuel e).Limits limit (evaluate fuel e)
  evaluateAll (es : List Expr) : (Watched.evaluateAll fuel es).Limits limit (evaluateAll fuel es)
  call (c : Callable) (vs : List Value) (line : Nat) :
    (Watched.call fuel c vs line).Limits limit (call fuel c vs line)
  callFunction (f : Function) (vs : List Value) (line : Nat) :
    (Watched.callFunction fuel f vs line).Limits limit (callFunction fuel f vs line)
  execute (s : Stmt) : (Watched.execute fuel s).Limits limit (execute fuel s)
  declareVar (decl : VarDecl) :
    (Watched.declareVar fuel decl).Limits limit (declareVar fuel decl)
  executeAll (statements : List Stmt) :
    (Watched.executeAll fuel statements).Limits limit (executeAll fuel statements)
  holds (condition : Option Expr) :
    (Watched.holds fuel condition).Limits limit (holds fuel condition)
  loop (condition increment : Option Expr) (body : Stmt) :
    (Watched.loop fuel condition increment body).Limits limit (loop fuel condition increment body)
  step (increment : Option Expr) : (Watched.step fuel increment).Limits limit (step fuel increment)

namespace CallsLimited

variable {limit : Option Nat} {fuel : Nat}

theorem zero : CallsLimited limit 0 where
  evaluate _ := .fuelSpent
  evaluateAll _ := .fuelSpent
  call _ _ _ := .fuelSpent
  callFunction _ _ _ := .fuelSpent
  execute _ := .fuelSpent
  declareVar _ := .fuelSpent
  executeAll _ := .fuelSpent
  holds _ := .fuelSpent
  loop _ _ _ := .fuelSpent
  step _ := .fuelSpent

theorem evaluate_succ (ih : CallsLimited limit fuel) (e : Expr) :
    (Watched.evaluate (fuel + 1) e).Limits limit (Lox.evaluate (fuel + 1) e) := by
  cases e with
  | literal value line => exact .pure _
  | group inner line => exact ih.evaluate inner
  | unary op right line => exact .bind (ih.evaluate right) fun v => .onHeap (.lift line _)
  | binary left op right line =>
    refine .bind (ih.evaluate left) fun v => ?_
    cases op.settled? v with
    | some settled => exact .pure settled
    | none => exact .bind (ih.evaluate right) fun w => .onHeap (.finish op v w line)
  | read o line => exact .onHeap (.read o line)
  | this o line => exact .onHeap (.read o line)
  | assign target value line =>
    exact .bind (ih.evaluate value) fun v => .bind (.onHeap (.write target v line)) fun _ => .pure v
  | get object name line =>
    refine .bind (ih.evaluate object) fun v => ?_
    cases v with
    | object id => exact .onHeap (.property id name line)
    | _ => exact .failRuntime line _
  | set object name value line =>
    refine .bind (ih.evaluate object) fun v => ?_
    cases v with
    | object id =>
      exact .bind (ih.evaluate value) fun v => .bind (.onHeap (.setField id name v)) fun _ => .pure v
    | _ => exact .failRuntime line _
  | call callee arguments line =>
    refine .bind (ih.evaluate callee) fun v => ?_
    cases v.callable? with
    | none => exact .failRuntime line _
    | some c =>
      exact .bind (.inspect fun _ _ _ => rfl) fun arity =>
        .ite (.failRuntime line _) (.bind (ih.evaluateAll arguments) fun vs => ih.call c vs line)

theorem evaluateAll_succ (ih : CallsLimited limit fuel) (es : List Expr) :
    (Watched.evaluateAll (fuel + 1) es).Limits limit (Lox.evaluateAll (fuel + 1) es) := by
  cases es with
  | nil => exact .pure []
  | cons e rest =>
    exact .bind (ih.evaluate e) fun v => .bind (ih.evaluateAll rest) fun vs => .pure (v :: vs)

theorem call_succ (ih : CallsLimited limit fuel) (c : Callable) (vs : List Value) (line : Nat) :
    (Watched.call (fuel + 1) c vs line).Limits limit (Lox.call (fuel + 1) c vs line) := by
  cases c with
  | native n =>
    cases n
    exact .asCall line (.quiet .tick)
  | function id =>
    exact .asCall line (.bind (.inspect fun _ _ _ => rfl) fun f => ih.callFunction f vs line)
  | classObject id =>
    refine .asCall line (.bind (.allocate _) fun receiver =>
      .bind (.inspect fun _ _ _ => rfl) fun method? => ?_)
    cases method? with
    | none => exact .pure _
    | some method =>
      exact .bind (.allocate _) fun bound => .bind (.inspect fun _ _ _ => rfl) fun f =>
        .bind (ih.callFunction f vs line) fun _ => .pure _

theorem callFunction_succ (ih : CallsLimited limit fuel) (f : Function) (vs : List Value)
    (line : Nat) :
    (Watched.callFunction (fuel + 1) f vs line).Limits limit
      (Lox.callFunction (fuel + 1) f vs line) := by
  refine .bind (.allocate _) fun frame => .bind (.onHeap (.defineAll frame _)) fun _ =>
    .bind ((ih.executeAll f.decl.body).inFrame frame) fun signal => ?_
  cases signal with
  | normal => exact .pure _
  | returned v => exact .pure v
  | exit e => exact .bind (.inspect fun _ _ _ => rfl) fun text => .onHeap (.fail line _)

theorem execute_for (ih : CallsLimited limit fuel) (init : ForInit)
    (condition increment : Option Expr) (body : Stmt) (line : Nat) :
    (Watched.execute (fuel + 1) (.forLoop init condition increment body line)).Limits limit
      (Lox.execute (fuel + 1) (.forLoop init condition increment body line)) := by
  have hloop := ih.loop condition increment body
  cases init with
  | nothing => exact hloop
  | declare decl => exact .inNewFrame (.bind (ih.declareVar decl) fun _ => hloop)
  | evaluate e => exact .bind (ih.evaluate e) fun _ => hloop

theorem execute_succ (ih : CallsLimited limit fuel) (s : Stmt) :
    (Watched.execute (fuel + 1) s).Limits limit (Lox.execute (fuel + 1) s) := by
  cases s with
  | expression e line => exact .bind (ih.evaluate e) fun _ => .pure _
  | print e line =>
    exact .bind (ih.evaluate e) fun v => .bind (.inspect fun _ _ _ => rfl) fun text =>
      .bind (.quiet (.print text)) fun _ => .pure _
  | var decl => exact .bind (ih.declareVar decl) fun _ => .pure _
  | function decl =>
    exact .bind (.inspect fun _ _ _ => rfl) fun frame => .bind (.allocate _) fun id =>
      .bind (.onHeap (.define _ _ _)) fun _ => .pure _
  | classDecl name methods line =>
    exact .bind (.onHeap (.define _ _ _)) fun _ => .bind (.inspect fun _ _ _ => rfl) fun frame =>
      .bind (.allocate _) fun table => .bind (.allocate _) fun id =>
        .bind (.onHeap (.assignHere _ _)) fun _ => .pure _
  | block statements line => exact (ih.executeAll statements).inNewFrame
  | ifThen condition thenBranch line =>
    exact .bind (ih.evaluate condition) fun v => .ite (ih.execute thenBranch) (.pure _)
  | ifElse condition thenBranch elseBranch line =>
    exact .bind (ih.evaluate condition) fun v =>
      .ite (ih.execute thenBranch) (ih.execute elseBranch)
  | whileLoop condition body line => exact ih.loop (some condition) none body
  | forLoop init condition increment body line => exact ih.execute_for init _ _ _ line
  | loopExit exit line => exact .pure _
  | returns value line =>
    cases value with
    | none => exact .pure _
    | some e => exact .bind (ih.evaluate e) fun v => .pure _

theorem declareVar_succ (ih : CallsLimited limit fuel) (decl : VarDecl) :
    (Watched.declareVar (fuel + 1) decl).Limits limit (Lox.declareVar (fuel + 1) decl) := by
  rcases decl with ⟨name, init, line⟩
  cases init with
  | none => exact .onHeap (.define name .nil line)
  | some e => exact .bind (ih.evaluate e) fun v => .onHeap (.define name v line)

theorem executeAll_succ (ih : CallsLimited limit fuel) (statements : List Stmt) :
    (Watched.executeAll (fuel + 1) statements).Limits limit
      (Lox.executeAll (fuel + 1) statements) := by
  cases statements with
  | nil => exact .pure _
  | cons s rest =>
    refine .bind (ih.execute s) fun signal => ?_
    cases signal with
    | normal => exact ih.executeAll rest
    | _ => exact .pure _

theorem holds_succ (ih : CallsLimited limit fuel) (condition : Option Expr) :
    (Watched.holds (fuel + 1) condition).Limits limit (Lox.holds (fuel + 1) condition) := by
  cases condition with
  | none => exact .pure true
  | some e => exact .bind (ih.evaluate e) fun v => .pure v.isTruthy

theorem loop_succ (ih : CallsLimited limit fuel) (condition increment : Option Expr)
    (body : Stmt) :
    (Watched.loop (fuel + 1) condition increment body).Limits limit
      (Lox.loop (fuel + 1) condition increment body) := by
  have hround : Limits limit (do
      let _ ← Watched.step fuel increment
      Watched.loop fuel condition increment body) (do
      let _ ← Lox.step fuel increment
      Lox.loop fuel condition increment body) :=
    .bind (ih.step increment) fun _ => ih.loop condition increment body
  refine .bind (ih.holds condition) fun b => .ite (.bind (ih.execute body) fun signal => ?_)
    (.pure _)
  cases signal with
  | normal => exact hround
  | returned v => exact .pure _
  | exit e =>
    cases e with
    | toEnd => exact .pure _
    | toNext => exact hround

theorem step_succ (ih : CallsLimited limit fuel) (increment : Option Expr) :
    (Watched.step (fuel + 1) increment).Limits limit (Lox.step (fuel + 1) increment) := by
  cases increment with
  | none => exact .pure ()
  | some e => exact .bind (ih.evaluate e) fun _ => .pure ()

end CallsLimited

theorem callsLimited (limit : Option Nat) (fuel : Nat) : CallsLimited limit fuel := by
  induction fuel with
  | zero => exact .zero
  | succ fuel ih =>
    exact {
      evaluate := ih.evaluate_succ
      evaluateAll := ih.evaluateAll_succ
      call := ih.call_succ
      callFunction := ih.callFunction_succ
      execute := ih.execute_succ
      declareVar := ih.declareVar_succ
      executeAll := ih.executeAll_succ
      holds := ih.holds_succ
      loop := ih.loop_succ
      step := ih.step_succ }

theorem executeProgram_limits (limit : Option Nat) (fuel : Nat) (program : List Stmt) :
    (Watched.executeProgram fuel program).Limits limit (Machine.executeProgram fuel program) := by
  induction program with
  | nil => exact .pure ()
  | cons s rest ih =>
    refine .bind ((callsLimited limit fuel).execute s) fun signal => ?_
    cases signal with
    | normal => exact ih
    | _ => exact .bind (.inspect fun _ _ _ => rfl) fun text => .onHeap (.fail _ _)

/-- What a program comes to with a limit: what it comes to without, unless a call is one too
many. -/
theorem interpret_cutOff (limit : Option Nat) (fuel : Nat) (program : List Stmt) (m : Machine) :
    match (Watched.interpret fuel program m).1.find? (·.exceeds limit) with
    | none => Machine.interpret fuel program (m.counting limit 0) =
        (Watched.interpret fuel program m).2.map fun r => (r.1, r.2.counting limit 0)
    | some note => limit.map (· + 1) = some note.active ∧ ∃ last,
        Machine.interpret fuel program (m.counting limit 0) =
          some (some ⟨note.line, .runtime .callsTooDeep⟩, last) ∧
        last.toWorld = (note.world.counting limit 0).fail := by
  have h := executeProgram_limits limit fuel program 0 m fun _ _ => Nat.zero_le _
  unfold Watched.interpret Machine.interpret
  generalize Watched.executeProgram fuel program 0 m = seen at h
  generalize Machine.executeProgram fuel program (m.counting limit 0) = r at h
  cases h with
  | @whole notes r hnone => cases r <;> simp only [hnone] <;> rfl
  | @stopped notes r note last hsome hlimit hworld =>
    have hlast : ∃ last', some (some ⟨note.line, .runtime .callsTooDeep⟩,
          { last with toWorld := last.fail, current := last.globals }) =
        some (some (⟨note.line, .runtime .callsTooDeep⟩ : Diagnostic), last') ∧
          last'.toWorld = (note.world.counting limit 0).fail :=
      ⟨_, rfl, congrArg World.fail hworld⟩
    cases r <;> simp only [hsome] <;> exact ⟨hlimit, hlast⟩

theorem interpret_watched (fuel : Nat) (program : List Stmt) (m : Machine) :
    Machine.interpret fuel program (m.counting none 0) =
      (Watched.interpret fuel program m).2.map fun r => (r.1, r.2.counting none 0) := by
  have hnone : (Watched.interpret fuel program m).1.find? (·.exceeds none) = none :=
    List.find?_eq_none.2 fun _ _ => Bool.false_ne_true
  simpa only [hnone] using interpret_cutOff none fuel program m

/-- The watched run is the run without a limit, and a run with the limit is the same if none of
the calls are more than the limit allows. Otherwise it stops at the first call that is one too
many, on the line of that call, with nothing printed but what is printed by then. -/
theorem run_callLimit (fuel : Nat) (source : String) (m : Machine) :
    (m.counting none 0).run fuel source =
        (Watched.run fuel source m).2.map (fun r => (r.1, r.2.counting none 0)) ∧
      match (Watched.run fuel source m).1.find? (callLimit < ·.active) with
      | none => (m.counting (some callLimit) 0).run fuel source =
          ((m.counting none 0).run fuel source).map fun r => (r.1, r.2.counting (some callLimit) 0)
      | some note => note.active = callLimit + 1 ∧ ∃ last,
          (m.counting (some callLimit) 0).run fuel source =
            some (some ⟨.runtime, [⟨note.line, .runtime .callsTooDeep⟩]⟩, last) ∧
          last.toWorld = (note.world.counting (some callLimit) 0).fail := by
  unfold Machine.run Watched.run
  cases compile source with
  | error f => exact ⟨rfl, rfl⟩
  | ok program =>
    have hunlimited := interpret_watched fuel program m
    have hlimited := interpret_cutOff (some callLimit) fuel program m
    simp only [hunlimited]
    refine ⟨by simp only [Option.map_map]; rfl, ?_⟩
    cases hn : (Watched.interpret fuel program m).1.find? (·.exceeds (some callLimit)) with
    | none =>
      simp only [hn] at hlimited
      have hn' : (Watched.interpret fuel program m).1.find? (callLimit < ·.active) = none := hn
      simp only [hn', hlimited, Option.map_map]
      rfl
    | some note =>
      simp only [hn] at hlimited
      obtain ⟨hactive, last, hlast, hworld⟩ := hlimited
      have hn' : (Watched.interpret fuel program m).1.find? (callLimit < ·.active) = some note := hn
      simp only [hn', hlast]
      exact ⟨(Option.some.inj hactive).symm, last, rfl, hworld⟩

/-- An argument that is a call is over before the call that takes it starts. -/
example :
    (Watched.run 16 "fun f(x) \x7b return x; \x7d\nfun g(x) \x7b return f(x); \x7d\ng(\nf(nil)\n);"
      (Machine.start none .unlimited fun _ => 0)).1.map (fun note => (note.line, note.active)) =
        [(4, 1), (3, 1), (2, 2)] := by cbv

end Lox
