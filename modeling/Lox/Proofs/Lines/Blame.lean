import Mathlib
import Lox.Session
import Lox.Proofs.Lines.Bounds

/-! Faults at run time are reported at lines of the code that was given to the machine, be it the
running program or the functions that earlier programs left. Only a full sink belongs to no line. -/
namespace Lox

variable {good : Nat → Prop}

/-! Parts of code on good lines. -/

namespace On

theorem body {decl : FunDecl Stmt} (h : On good functionRelined decl) :
    On good statementsRelined decl.body := by
  rcases decl with ⟨name, params, body, line, site⟩
  exact h.part fun φ he => (FunDecl.mk.inj he).2.2.1

theorem function_line {decl : FunDecl Stmt} (h : On good functionRelined decl) :
    good decl.line := by
  rcases decl with ⟨name, params, body, line, site⟩
  exact h.line fun φ he => (FunDecl.mk.inj he).2.2.2.1

theorem stmt_line {s : Stmt} (h : On good Stmt.relined s) : good s.line :=
  h.line fun φ he => (Stmt.relined_line φ s).symm.trans (congrArg Stmt.line he)

theorem methods {methods : List (FunDecl Stmt)} (h : On good methodsRelined methods) :
    ∀ d ∈ methods, On good functionRelined d := by
  induction methods with
  | nil => simp
  | cons d rest ih =>
    exact List.forall_mem_cons.2 ⟨h.part fun φ he => (List.cons.inj he).1,
      ih (h.part fun φ he => (List.cons.inj he).2)⟩

theorem some {e : Expr} (h : On good (fun φ => Option.map (Expr.relined φ)) (some e)) :
    On good Expr.relined e := h.part fun _ he => Option.some.inj he

end On

/-! Machines and actions. -/

/-- The bodies of all functions are code on good lines. -/
def Heap.CodeOn (good : Nat → Prop) (h : Heap) : Prop :=
  ∀ f ∈ h.functions, On good statementsRelined f.decl.body

namespace Heap.CodeOn

variable {h : Heap}

theorem mono {better : Nat → Prop} (hh : h.CodeOn better) (hg : ∀ line, better line → good line) :
    h.CodeOn good := fun f hf => (hh f hf).mono hg

/-- Places that were never given out hold a function without code. -/
theorem function (hh : h.CodeOn good) (id : FunctionId) :
    On good statementsRelined (h.function id).decl.body := by
  unfold Heap.function
  cases hf : h.functions[id]? with
  | none => exact fun _ _ => rfl
  | some f => exact hh f (Array.mem_of_getElem? hf)

theorem addFunction (hh : h.CodeOn good) {f : Function}
    (hf : On good statementsRelined f.decl.body) : (h.addFunction f).2.CodeOn good := by
  intro g hg
  rcases Array.mem_push.1 hg with hg | rfl
  · exact hh g hg
  · exact hf

theorem addMethods (hh : h.CodeOn good) (frame : FrameId) {methods : List (FunDecl Stmt)}
    (hm : ∀ d ∈ methods, On good functionRelined d) (table : Bindings FunctionId) :
    (h.addMethods frame methods table).2.CodeOn good := by
  induction methods generalizing h table with
  | nil => exact hh
  | cons d rest ih =>
    obtain ⟨hd, hrest⟩ := List.forall_mem_cons.1 hm
    exact ih (hh.addFunction hd.body) hrest _

theorem bindMethod (hh : h.CodeOn good) (method : FunctionId) (receiver : InstanceId) :
    (h.bindMethod method receiver).2.CodeOn good :=
  addFunction (h := ((h.addFrame _).2.bind _ _ _)) hh (hh.function method)

end Heap.CodeOn

variable {α β : Type}

/-- The functions are on good lines, and so is the fault, unless the sink is to blame. -/
inductive Answer.Blames (good : Nat → Prop) : Answer Machine α → Prop where
  | done {a : α} {m : Machine} : m.heap.CodeOn good → Blames good (.done a m)
  | failed {d : Diagnostic} {m : Machine} : (d.fault ≠ .sinkFull → good d.line) →
    m.heap.CodeOn good → Blames good (.failed d m)
  | outOfFuel : Blames good .outOfFuel

/-- The action, on machines whose functions are on good lines, fails at good lines. -/
def Action.Blames (good : Nat → Prop) (x : Action Machine α) : Prop :=
  ∀ m : Machine, m.heap.CodeOn good → (x m).Blames good

namespace Action.Blames

theorem pure (a : α) : (Pure.pure a : Action Machine α).Blames good := fun _ h => .done h

theorem fuelSpent : (Action.fuelSpent : Action Machine α).Blames good := fun _ _ => .outOfFuel

theorem fail {line : Nat} (hline : good line) (f : Fault) :
    (Action.fail line f : Action Machine α).Blames good := fun _ h => .failed (fun _ => hline) h

theorem failRuntime {line : Nat} (hline : good line) (f : RuntimeFault) :
    (Action.failRuntime line f : Action Machine α).Blames good := .fail hline _

theorem lift {line : Nat} (hline : good line) (r : Except RuntimeFault α) :
    (Action.lift line r : Action Machine α).Blames good := by
  cases r with
  | ok a => exact .pure a
  | error f => exact .failRuntime hline f

theorem finish (op : BinaryOp) (v w : Value) {line : Nat} (hline : good line) :
    (op.finish v w line : Action Machine Value).Blames good := by
  cases op with
  | strict op => exact .lift hline _
  | _ => exact .pure w

theorem bind {x : Action Machine α} {f : α → Action Machine β} (hx : x.Blames good)
    (hf : ∀ a, (f a).Blames good) : (x >>= f).Blames good := by
  intro m hm
  have hx := hx m hm
  rw [bind_apply]
  generalize x m = r at hx
  cases hx with
  | done h => exact hf _ _ h
  | failed hd h => exact .failed hd h
  | outOfFuel => exact .outOfFuel

theorem look {u : Machine → α} {f : α → Action Machine β} (hf : ∀ a, (f a).Blames good) :
    (Action.inspect u >>= f).Blames good := fun m hm => hf (u m) m hm

/-- The body of a function that is looked up is on good lines. -/
theorem lookFunction (id : FunctionId) {f : Function → Action Machine β}
    (hf : ∀ g : Function, On good statementsRelined g.decl.body → (f g).Blames good) :
    (Action.inspect (fun m : Machine => m.heap.function id) >>= f).Blames good :=
  fun m hm => hf _ (hm.function id) m hm

theorem ite {p : Prop} [Decidable p] {x y : Action Machine α} (hx : x.Blames good)
    (hy : y.Blames good) : (if p then x else y).Blames good := by
  split
  · exact hx
  · exact hy

theorem allocate {f : Heap → α × Heap}
    (hf : ∀ h : Heap, h.CodeOn good → (f h).2.CodeOn good) : (Machine.allocate f).Blames good :=
  fun m hm => .done (hf m.heap hm)

theorem setField (id : InstanceId) (name : String) (v : Value) :
    (Machine.setField id name v).Blames good := fun _ hm => .done hm

theorem read (o : Occurrence) {line : Nat} (hline : good line) :
    (Machine.read o line).Blames good := by
  intro m hm
  unfold Machine.read
  split
  · exact .done hm
  · exact .failed (fun _ => hline) hm

theorem write (o : Occurrence) (v : Value) {line : Nat} (hline : good line) :
    (Machine.write o v line).Blames good := by
  intro m hm
  unfold Machine.write
  split
  · exact .done hm
  · exact .failed (fun _ => hline) hm

theorem define (name : String) (v : Value) {line : Nat} (hline : good line) :
    (Machine.define name v line).Blames good := by
  intro m hm
  unfold Machine.define
  split
  · exact .done hm
  · exact .failed (fun _ => hline) hm

theorem assignHere (name : String) (v : Value) : (Machine.assignHere name v).Blames good := by
  intro m hm
  unfold Machine.assignHere
  split <;> exact .done hm

theorem defineAll (frame : FrameId) (entries : List (String × Value)) :
    (Machine.defineAll frame entries).Blames good := by
  induction entries with
  | nil => exact .pure ()
  | cons entry rest ih =>
    intro m hm
    refine ih _ ?_
    split <;> exact hm

theorem property (id : InstanceId) (name : String) {line : Nat} (hline : good line) :
    (Machine.property id name line).Blames good := by
  unfold Machine.property
  refine .look fun found => ?_
  cases found with
  | none => exact .failRuntime hline _
  | some found =>
    cases found with
    | field v => exact .pure v
    | method method => exact .bind (.allocate fun _ hh => hh.bindMethod method id) fun _ => .pure _

/-- The one fault that has no line. -/
theorem print (text : String) : (Machine.print text).Blames good := by
  intro m hm
  simp only [Machine.print]
  split
  · exact .done hm
  · exact .failed (fun h => absurd rfl h) hm

theorem tick : Machine.tick.Blames good := fun _ hm => .done hm

theorem inFrame (frame : FrameId) {x : Action Machine α} (hx : x.Blames good) :
    (Machine.inFrame frame x).Blames good := by
  intro m hm
  have hx := hx { m with current := frame } hm
  unfold Machine.inFrame
  generalize x { m with current := frame } = r at hx
  cases hx with
  | done h => exact .done h
  | failed hd h => exact .failed hd h
  | outOfFuel => exact .outOfFuel

theorem inNewFrame {x : Action Machine α} (hx : x.Blames good) :
    (Machine.inNewFrame x).Blames good :=
  .look fun _ => .bind (.allocate fun _ => id) fun frame => .inFrame frame hx

theorem asCall {line : Nat} (hline : good line) {x : Action Machine α} (hx : x.Blames good) :
    (Machine.asCall line x).Blames good := by
  intro m hm
  have hx := hx { m with toWorld := m.enterCall } hm
  unfold Machine.asCall
  split
  · exact .failed (fun _ => hline) hm
  generalize x { m with toWorld := m.enterCall } = r at hx
  cases hx with
  | done h => exact .done h
  | failed hd h => exact .failed hd h
  | outOfFuel => exact .outOfFuel

end Action.Blames

/-! Evaluation. -/

/-- The evaluations of code on good lines, at one amount of fuel. -/
structure EvaluationsBlame (good : Nat → Prop) (fuel : Nat) : Prop where
  evaluate {e : Expr} : On good Expr.relined e → (evaluate fuel e).Blames good
  evaluateAll {es : List Expr} : On good argumentsRelined es → (evaluateAll fuel es).Blames good
  call (c : Callable) (vs : List Value) {line : Nat} : good line →
    (call fuel c vs line).Blames good
  callFunction {f : Function} (vs : List Value) {line : Nat} :
    On good statementsRelined f.decl.body → good line → (callFunction fuel f vs line).Blames good
  execute {s : Stmt} : On good Stmt.relined s → (execute fuel s).Blames good
  declareVar {decl : VarDecl} : On good VarDecl.relined decl → (declareVar fuel decl).Blames good
  executeAll {statements : List Stmt} : On good statementsRelined statements →
    (executeAll fuel statements).Blames good
  holds {condition : Option Expr} : On good (fun φ => Option.map (Expr.relined φ)) condition →
    (holds fuel condition).Blames good
  loop {condition increment : Option Expr} {body : Stmt} :
    On good (fun φ => Option.map (Expr.relined φ)) condition →
    On good (fun φ => Option.map (Expr.relined φ)) increment → On good Stmt.relined body →
    (loop fuel condition increment body).Blames good
  step {increment : Option Expr} : On good (fun φ => Option.map (Expr.relined φ)) increment →
    (step fuel increment).Blames good

namespace EvaluationsBlame

variable {fuel : Nat}

theorem zero : EvaluationsBlame good 0 where
  evaluate _ := .fuelSpent
  evaluateAll _ := .fuelSpent
  call _ _ _ _ := .fuelSpent
  callFunction _ _ _ _ := .fuelSpent
  execute _ := .fuelSpent
  declareVar _ := .fuelSpent
  executeAll _ := .fuelSpent
  holds _ := .fuelSpent
  loop _ _ _ := .fuelSpent
  step _ := .fuelSpent

theorem evaluate_succ (ih : EvaluationsBlame good fuel) {e : Expr} (h : On good Expr.relined e) :
    (Lox.evaluate (fuel + 1) e).Blames good := by
  have hline : good e.line := h.line fun φ he => (Expr.relined_line φ e).symm.trans (congrArg _ he)
  cases e with
  | literal value line => exact .pure _
  | group inner line => exact ih.evaluate (h.part fun _ he => (Expr.group.inj he).1)
  | unary op right line =>
    exact .bind (ih.evaluate (h.part fun _ he => (Expr.unary.inj he).2.1)) fun v => .lift hline _
  | binary left op right line =>
    refine .bind (ih.evaluate (h.part fun _ he => (Expr.binary.inj he).1)) fun v => ?_
    cases op.settled? v with
    | some settled => exact .pure settled
    | none =>
      exact .bind (ih.evaluate (h.part fun _ he => (Expr.binary.inj he).2.2.1)) fun w =>
        .finish op v w hline
  | read o line => exact .read o hline
  | this o line => exact .read o hline
  | assign target value line =>
    exact .bind (ih.evaluate (h.part fun _ he => (Expr.assign.inj he).2.1)) fun v =>
      .bind (.write target v hline) fun _ => .pure v
  | get object name line =>
    refine .bind (ih.evaluate (h.part fun _ he => (Expr.get.inj he).1)) fun v => ?_
    cases v with
    | object id => exact .property id name hline
    | _ => exact .failRuntime hline _
  | set object name value line =>
    refine .bind (ih.evaluate (h.part fun _ he => (Expr.set.inj he).1)) fun v => ?_
    cases v with
    | object id =>
      exact .bind (ih.evaluate (h.part fun _ he => (Expr.set.inj he).2.2.1)) fun v =>
        .bind (.setField id name v) fun _ => .pure v
    | _ => exact .failRuntime hline _
  | call callee arguments line =>
    refine .bind (ih.evaluate (h.part fun _ he => (Expr.call.inj he).1)) fun v => ?_
    cases v.callable? with
    | none => exact .failRuntime hline _
    | some c =>
      exact .look fun arity => .ite (.failRuntime hline _)
        (.bind (ih.evaluateAll (h.part fun _ he => (Expr.call.inj he).2.1)) fun vs =>
          ih.call c vs hline)

theorem evaluateAll_succ (ih : EvaluationsBlame good fuel) {es : List Expr}
    (h : On good argumentsRelined es) : (Lox.evaluateAll (fuel + 1) es).Blames good := by
  cases es with
  | nil => exact .pure []
  | cons e rest =>
    exact .bind (ih.evaluate (h.part fun _ he => (List.cons.inj he).1)) fun v =>
      .bind (ih.evaluateAll (h.part fun _ he => (List.cons.inj he).2)) fun vs => .pure (v :: vs)

/-- What a call runs is code of the machine. -/
theorem call_succ (ih : EvaluationsBlame good fuel) (c : Callable) (vs : List Value) {line : Nat}
    (hline : good line) : (Lox.call (fuel + 1) c vs line).Blames good := by
  cases c with
  | native n =>
    cases n
    exact .asCall hline .tick
  | function id =>
    exact .asCall hline (.lookFunction id fun f hf => ih.callFunction vs hf hline)
  | classObject id =>
    refine .asCall hline (.bind (.allocate fun _ => fun h => h) fun receiver =>
      .look fun method? => ?_)
    cases method? with
    | none => exact .pure _
    | some method =>
      exact .bind (.allocate fun _ hh => hh.bindMethod method receiver) fun bound =>
        .lookFunction bound fun f hf =>
          .bind (ih.callFunction vs hf hline) fun _ => .pure _

theorem callFunction_succ (ih : EvaluationsBlame good fuel) {f : Function} (vs : List Value)
    {line : Nat} (h : On good statementsRelined f.decl.body) (hline : good line) :
    (Lox.callFunction (fuel + 1) f vs line).Blames good := by
  refine .bind (.allocate fun _ => id) fun frame => .bind (.defineAll frame _) fun _ =>
    .bind (.inFrame frame (ih.executeAll h)) fun signal => ?_
  cases signal with
  | normal => exact .pure _
  | returned v => exact .pure v
  | exit e => exact .look fun text => .fail hline _

theorem execute_succ (ih : EvaluationsBlame good fuel) {s : Stmt} (h : On good Stmt.relined s) :
    (Lox.execute (fuel + 1) s).Blames good := by
  cases s with
  | expression e line =>
    exact .bind (ih.evaluate (h.part fun _ he => (Stmt.expression.inj he).1)) fun _ => .pure _
  | print e line =>
    exact .bind (ih.evaluate (h.part fun _ he => (Stmt.print.inj he).1)) fun v =>
      .look fun text => .bind (.print text) fun _ => .pure _
  | var decl =>
    exact .bind (ih.declareVar (h.part fun _ he => Stmt.var.inj he)) fun _ => .pure _
  | function decl =>
    have hdecl : On good functionRelined decl := h.part fun _ he => Stmt.function.inj he
    exact .look fun frame => .bind (.allocate fun _ hh => hh.addFunction hdecl.body) fun id =>
      .bind (.define _ _ hdecl.function_line) fun _ => .pure _
  | classDecl name methods line =>
    have hmethods : On good methodsRelined methods :=
      h.part fun _ he => (Stmt.classDecl.inj he).2.1
    exact .bind (.define _ _ h.stmt_line) fun _ => .look fun frame =>
      .bind (.allocate fun _ hh => hh.addMethods frame hmethods.methods []) fun table =>
        .bind (.allocate fun _ => id) fun id => .bind (.assignHere _ _) fun _ => .pure _
  | block statements line =>
    exact .inNewFrame (ih.executeAll (h.part fun _ he => (Stmt.block.inj he).1))
  | ifThen condition thenBranch line =>
    exact .bind (ih.evaluate (h.part fun _ he => (Stmt.ifThen.inj he).1)) fun v =>
      .ite (ih.execute (h.part fun _ he => (Stmt.ifThen.inj he).2.1)) (.pure _)
  | ifElse condition thenBranch elseBranch line =>
    exact .bind (ih.evaluate (h.part fun _ he => (Stmt.ifElse.inj he).1)) fun v =>
      .ite (ih.execute (h.part fun _ he => (Stmt.ifElse.inj he).2.1))
        (ih.execute (h.part fun _ he => (Stmt.ifElse.inj he).2.2.1))
  | whileLoop condition body line =>
    exact ih.loop (h.part fun _ he => congrArg Option.some (Stmt.whileLoop.inj he).1)
      (fun _ _ => rfl) (h.part fun _ he => (Stmt.whileLoop.inj he).2.1)
  | forLoop init condition increment body line =>
    have hinit : On good ForInit.relined init := h.part fun _ he => (Stmt.forLoop.inj he).1
    have hloop : (Lox.loop fuel condition increment body).Blames good :=
      ih.loop (h.part fun _ he => (Stmt.forLoop.inj he).2.1)
        (h.part fun _ he => (Stmt.forLoop.inj he).2.2.1)
        (h.part fun _ he => (Stmt.forLoop.inj he).2.2.2.1)
    cases init with
    | nothing => exact hloop
    | declare decl =>
      exact .inNewFrame (.bind (ih.declareVar (hinit.part fun _ he => ForInit.declare.inj he))
        fun _ => hloop)
    | evaluate e =>
      exact .bind (ih.evaluate (hinit.part fun _ he => ForInit.evaluate.inj he)) fun _ => hloop
  | loopExit exit line => exact .pure _
  | returns value line =>
    cases value with
    | none => exact .pure _
    | some e =>
      exact .bind (ih.evaluate (h.part fun _ he => Option.some.inj (Stmt.returns.inj he).1))
        fun v => .pure _

theorem declareVar_succ (ih : EvaluationsBlame good fuel) {decl : VarDecl}
    (h : On good VarDecl.relined decl) : (Lox.declareVar (fuel + 1) decl).Blames good := by
  rcases decl with ⟨name, init, line⟩
  have hline : good line := h.line fun _ he => (VarDecl.mk.inj he).2.2
  cases init with
  | none => exact .define name .nil hline
  | some e =>
    exact .bind (ih.evaluate (h.part fun _ he => Option.some.inj (VarDecl.mk.inj he).2.1)) fun v =>
      .define name v hline

theorem executeAll_succ (ih : EvaluationsBlame good fuel) {statements : List Stmt}
    (h : On good statementsRelined statements) :
    (Lox.executeAll (fuel + 1) statements).Blames good := by
  cases statements with
  | nil => exact .pure _
  | cons s rest =>
    refine .bind (ih.execute (h.part fun _ he => (List.cons.inj he).1)) fun signal => ?_
    cases signal with
    | normal => exact ih.executeAll (h.part fun _ he => (List.cons.inj he).2)
    | _ => exact .pure _

theorem holds_succ (ih : EvaluationsBlame good fuel) {condition : Option Expr}
    (h : On good (fun φ => Option.map (Expr.relined φ)) condition) :
    (Lox.holds (fuel + 1) condition).Blames good := by
  cases condition with
  | none => exact .pure true
  | some e => exact .bind (ih.evaluate h.some) fun v => .pure v.isTruthy

theorem loop_succ (ih : EvaluationsBlame good fuel) {condition increment : Option Expr}
    {body : Stmt} (hcondition : On good (fun φ => Option.map (Expr.relined φ)) condition)
    (hincrement : On good (fun φ => Option.map (Expr.relined φ)) increment)
    (hbody : On good Stmt.relined body) :
    (Lox.loop (fuel + 1) condition increment body).Blames good := by
  have hround := (ih.step hincrement).bind fun _ => ih.loop hcondition hincrement hbody
  refine .bind (ih.holds hcondition) fun b => .ite (.bind (ih.execute hbody) fun signal => ?_)
    (.pure _)
  cases signal with
  | normal => exact hround
  | returned v => exact .pure _
  | exit e =>
    cases e with
    | toEnd => exact .pure _
    | toNext => exact hround

theorem step_succ (ih : EvaluationsBlame good fuel) {increment : Option Expr}
    (h : On good (fun φ => Option.map (Expr.relined φ)) increment) :
    (Lox.step (fuel + 1) increment).Blames good := by
  cases increment with
  | none => exact .pure ()
  | some e => exact .bind (ih.evaluate h.some) fun _ => .pure ()

end EvaluationsBlame

theorem evaluationsBlame (good : Nat → Prop) (fuel : Nat) : EvaluationsBlame good fuel := by
  induction fuel with
  | zero => exact .zero
  | succ fuel ih =>
    exact {
      evaluate := ih.evaluate_succ
      evaluateAll := ih.evaluateAll_succ
      call := ih.call_succ
      callFunction := ih.callFunction_succ
      execute := ih.execute_succ
      declareVar := ih.declareVar_succ
      executeAll := ih.executeAll_succ
      holds := ih.holds_succ
      loop := ih.loop_succ
      step := ih.step_succ }

/-! Programs, sources and sessions. -/

theorem executeProgram_blames (fuel : Nat) {program : List Stmt}
    (h : On good statementsRelined program) :
    (Machine.executeProgram fuel program).Blames good := by
  induction program with
  | nil => exact .pure ()
  | cons s rest ih =>
    have hs : On good Stmt.relined s := h.part fun _ he => (List.cons.inj he).1
    refine .bind ((evaluationsBlame good fuel).execute hs) fun signal => ?_
    cases signal with
    | normal => exact ih (h.part fun _ he => (List.cons.inj he).2)
    | _ => exact .look fun text => .fail hs.stmt_line _

theorem Machine.interpret_blames {fuel : Nat} {program : List Stmt} {m m' : Machine}
    {d? : Option Diagnostic} (hp : On good statementsRelined program) (hm : m.heap.CodeOn good)
    (h : m.interpret fuel program = some (d?, m')) :
    m'.heap.CodeOn good ∧ ∀ d ∈ d?, d.fault ≠ .sinkFull → good d.line := by
  have hrun := executeProgram_blames fuel hp m hm
  unfold Machine.interpret at h
  generalize executeProgram fuel program m = r at hrun h
  cases hrun with
  | done hlast =>
    cases h
    exact ⟨hlast, by simp⟩
  | failed hd hlast =>
    cases h
    exact ⟨hlast, by simpa using hd⟩
  | outOfFuel => cases h

/-- A program that compiles is on the lines of the tokens of its source. -/
theorem compile_on {source : String} {program : List Stmt} (h : compile source = .ok program) :
    On (fun line => ∃ t ∈ Token.scan source, t.line = line) statementsRelined program := by
  obtain ⟨-, hparsed, hlocated⟩ := compile_eq_ok.1 h
  have hon := locateProgram_on (Grammar.parse_on hparsed)
  rwa [hlocated] at hon

/-- The lines on which some source of the list has a token. -/
def TokenLine (sources : List String) (line : Nat) : Prop :=
  ∃ source ∈ sources, ∃ t ∈ Token.scan source, t.line = line

theorem TokenLine.mono {sources sources' : List String} (hs : sources ⊆ sources') {line : Nat}
    (h : TokenLine sources line) : TokenLine sources' line := by
  obtain ⟨source, hsource, ht⟩ := h
  exact ⟨source, hs hsource, ht⟩

/-- The failure of `source`: at run time one diagnostic, on a line of a token of the sources that
the machine has been given, unless it is the sink that failed; before that one or more, on lines of
the source. -/
structure Failure.PointsInto (given : List String) (source : String) (f : Failure) : Prop where
  runtime : f.stage = .runtime →
    ∃ d, f.diagnostics = [d] ∧ (d.fault ≠ .sinkFull → TokenLine given d.line)
  static : f.stage ≠ .runtime →
    f.diagnostics ≠ [] ∧ ∀ d ∈ f.diagnostics, HasLine source d.line

theorem compile_points {source : String} {f : Failure} (h : compile source = .error f)
    (given : List String) : f.PointsInto given source := by
  have hpoints {stage : Stage} {ds : List Diagnostic} (hs : stage ≠ .runtime)
      (hds : (!ds.isEmpty) = true) (hlines : ∀ d ∈ ds, HasLine source d.line) :
      Failure.PointsInto given source ⟨stage, ds⟩ :=
    ⟨fun he => absurd he hs, fun _ => ⟨by simpa using hds, hlines⟩⟩
  simp only [compile] at h
  split at h
  next hd =>
    cases h
    exact hpoints (by simp) hd fun d hd => Diagnostic.scan_line hd
  split at h
  next hd =>
    cases h
    exact hpoints (by simp) hd fun d hd => Grammar.parse_scan_line hd
  next hparsed =>
    split at h
    next hd =>
      cases h
      exact hpoints (by simp) hd fun d hd =>
        locateProgram_scan_line (by simpa using hparsed) hd
    next => cases h

namespace Machine

variable {fuel : Nat} {given : List String} {m m' : Machine}

/-- Functions of a machine are code of the sources that it has been given, this one included. -/
theorem run_points {source : String} {f? : Option Failure}
    (hm : m.heap.CodeOn (TokenLine given)) (hg : source ∈ given)
    (h : m.run fuel source = some (f?, m')) :
    m'.heap.CodeOn (TokenLine given) ∧ ∀ f ∈ f?, f.PointsInto given source := by
  obtain ⟨f, hc, rfl, rfl⟩ | ⟨program, d?, hc, hlast, rfl⟩ := run_eq_some.1 h
  · exact ⟨hm, by simpa using compile_points hc given⟩
  · have hon := (compile_on hc).mono fun line ht => (⟨source, hg, ht⟩ : TokenLine given line)
    obtain ⟨hcode, hd⟩ := interpret_blames hon hm hlast
    refine ⟨hcode, fun f hf => ?_⟩
    obtain ⟨d, hmem, rfl⟩ := Option.map_eq_some_iff.1 hf
    exact ⟨fun _ => ⟨d, rfl, hd d hmem⟩, fun hs => absurd rfl hs⟩

theorem session_points {sources : List String} {entries : List Entry}
    (hm : m.heap.CodeOn (TokenLine given)) (h : m.session fuel sources = some (entries, m'))
    {i : Nat} {entry : Entry} (hi : entries[i]? = some entry) {f : Failure}
    (hf : entry.failure = some f) :
    ∃ source, sources[i]? = some source ∧
      f.PointsInto (given ++ sources.take (i + 1)) source := by
  induction sources generalizing given m entries i with
  | nil =>
    cases h
    cases hi
  | cons source rest ih =>
    obtain ⟨f?, mid, others, hrun, hothers, rfl⟩ := session_cons_eq_some.1 h
    have hm' : m.heap.CodeOn (TokenLine (given ++ [source])) :=
      hm.mono fun _ => TokenLine.mono (by simp)
    obtain ⟨hmid, hpoints⟩ := run_points hm' (by simp) hrun
    cases i with
    | zero =>
      cases hi
      exact ⟨source, rfl, hpoints f hf⟩
    | succ i =>
      obtain ⟨source', hs, hpoints⟩ := ih hmid hothers hi
      exact ⟨source', hs, by simpa using hpoints⟩

end Machine

/-- Every diagnostic points at a real line. What is wrong with a source is reported at one of its
lines. A session's failure at run time is reported once, at the line of a token of the sources that
have been run so far, unless the sink is full; any other failure is reported at least once. -/
theorem diagnostics_point :
    (∀ source : String, (∀ d ∈ Diagnostic.scan source, HasLine source d.line) ∧
      (∀ d ∈ (Grammar.parse (Token.scan source)).diagnostics, HasLine source d.line) ∧
      ((Grammar.parse (Token.scan source)).diagnostics = [] →
        ∀ d ∈ (locateProgram (Grammar.parse (Token.scan source)).statements).2,
          HasLine source d.line)) ∧
    ∀ (limit : Option Nat) (sink : Sink) (clock : Nat → Float) (fuel : Nat) (sources : List String)
      (entries : List Entry) (last : Machine),
      (Machine.start limit sink clock).session fuel sources = some (entries, last) →
      ∀ (i : Nat) (entry : Entry) (f : Failure), entries[i]? = some entry →
        entry.failure = some f →
        ∃ source, sources[i]? = some source ∧ f.PointsInto (sources.take (i + 1)) source := by
  refine ⟨fun source => ⟨fun d => Diagnostic.scan_line, fun d => Grammar.parse_scan_line,
    fun hq d => locateProgram_scan_line hq⟩, ?_⟩
  intro limit sink clock fuel sources entries last h i entry f hi hf
  have hstart : (Machine.start limit sink clock).heap.CodeOn (TokenLine []) :=
    fun f hf => absurd hf (Array.not_mem_empty f)
  exact Machine.session_points hstart h hi hf

/-- The second source has one line, and fails on the third line of the first one. -/
def blamedSources : List String := ["fun opposite(x) \x7b\n\n  return -x;\n\x7d", "opposite(nil);"]

theorem diagnostics_point_earlier :
    ∃ entries last, (Machine.start none .unlimited fun _ => 0).session 16 blamedSources =
        some (entries, last) ∧
      ∃ entry f, entries[1]? = some entry ∧ entry.failure = some f ∧ f.stage = .runtime ∧
        f.diagnostics = [⟨3, .runtime .operandNotNumber⟩] ∧ TokenLine blamedSources 3 := by
  have hrun : ((Machine.start none .unlimited fun _ => 0).session 16 blamedSources).map
      (fun r => r.1.map fun e => e.failure.map fun f => (f.stage, f.diagnostics)) =
        some [none, some (.runtime, [⟨3, .runtime .operandNotNumber⟩])] := by cbv
  obtain ⟨⟨entries, last⟩, h, hfailures⟩ := Option.map_eq_some_iff.1 hrun
  have hsecond := congrArg (fun failures => failures[1]?) hfailures
  simp only [List.getElem?_map, List.getElem?_cons_succ, List.getElem?_cons_zero,
    Option.map_eq_some_iff] at hsecond
  obtain ⟨entry, hi, f, hf, hshown⟩ := hsecond
  obtain ⟨hstage, hdiagnostics⟩ := Prod.mk.inj hshown
  obtain ⟨source, -, hpoints⟩ := diagnostics_point.2 _ _ _ _ _ _ _ h 1 entry f hi hf
  obtain ⟨d, hd, hline⟩ := hpoints.runtime hstage
  obtain rfl : d = ⟨3, .runtime .operandNotNumber⟩ := by simpa [hdiagnostics] using hd.symm
  exact ⟨entries, last, h, entry, f, hi, hf, hstage, hdiagnostics, hline (by simp)⟩

end Lox
