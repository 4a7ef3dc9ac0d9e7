import Mathlib
import Lox.Proofs.Finishing.Ready

/-! Loop-free programs finish: a run nests no deeper than the calls that are left times what a body
needs, and the tree that is left. -/
namespace Lox

open Machine (Ready)

/-- The fuel that suffices for a call of which so many may still nest. -/
def callCost (bound left : Nat) : Nat := left * (bound + 3) + 1

theorem callCost_pos (bound left : Nat) : 0 < callCost bound left := Nat.succ_pos _

theorem callCost_succ (bound left : Nat) :
    callCost bound (left + 1) = callCost bound left + (bound + 3) := by
  simp only [callCost, Nat.succ_mul]
  omega

/-- The evaluations at one amount of fuel keep machines ready, and answer if the fuel suffices for
the tree and the calls that are left. -/
structure Finishes (bound limit fuel : Nat) : Prop where
  evaluate (e : Expr) (left : Nat) : (evaluate fuel e).Keeps (Ready bound limit left)
    (sizeOf e + callCost bound left ≤ fuel)
  evaluateAll (es : List Expr) (left : Nat) : (evaluateAll fuel es).Keeps (Ready bound limit left)
    (sizeOf es + callCost bound left ≤ fuel)
  call (c : Callable) (vs : List Value) (line left : Nat) :
    (call fuel c vs line).Keeps (Ready bound limit left) (callCost bound left ≤ fuel)
  callFunction {f : Function} (vs : List Value) (line left : Nat) : f.Fits bound →
    (callFunction fuel f vs line).Keeps (Ready bound limit left)
      (bound + 2 + callCost bound left ≤ fuel)
  execute {s : Stmt} (left : Nat) : s.LoopFree → sizeOf s ≤ bound →
    (execute fuel s).Keeps (Ready bound limit left) (sizeOf s + callCost bound left ≤ fuel)
  declareVar (decl : VarDecl) (left : Nat) : (declareVar fuel decl).Keeps (Ready bound limit left)
    (sizeOf decl + callCost bound left ≤ fuel)
  executeAll {statements : List Stmt} (left : Nat) : statementsLoopFree statements →
    sizeOf statements ≤ bound + 1 → (executeAll fuel statements).Keeps (Ready bound limit left)
      (sizeOf statements + callCost bound left ≤ fuel)

namespace Finishes

variable {bound limit fuel : Nat}

theorem zero : Finishes bound limit 0 := by
  have hspent {α : Type} {left n : Nat} : (Action.fuelSpent : Action Machine α).Keeps
      (Ready bound limit left) (n + callCost bound left ≤ 0) :=
    .fuelSpent (by have := callCost_pos bound left; omega)
  exact {
    evaluate := fun _ _ => hspent
    evaluateAll := fun _ _ => hspent
    call := fun _ _ _ left => .fuelSpent (by have := callCost_pos bound left; omega)
    callFunction := fun _ _ _ _ => hspent
    execute := fun _ _ _ => hspent
    declareVar := fun _ _ => hspent
    executeAll := fun _ _ _ => hspent }

theorem evaluate_succ (ih : Finishes bound limit fuel) (e : Expr) (left : Nat) :
    (Lox.evaluate (fuel + 1) e).Keeps (Ready bound limit left)
      (sizeOf e + callCost bound left ≤ fuel + 1) := by
  have hpart {part : Expr} (h : sizeOf part < sizeOf e) : (Lox.evaluate fuel part).Keeps
      (Ready bound limit left) (sizeOf e + callCost bound left ≤ fuel + 1) :=
    (ih.evaluate part left).of_enough (by omega)
  cases e with
  | literal value line => exact .pure _
  | group inner line => exact hpart (by simp; omega)
  | unary op right line => exact .bind (hpart (by simp; omega)) fun v => .lift line _
  | binary l op r line =>
    refine .bind (hpart (by simp; omega)) fun v => ?_
    cases op.settled? v with
    | some settled => exact .pure settled
    | none => exact .bind (hpart (by simp; omega)) fun w => .finish op v w line
  | read o line => exact Machine.read_keeps o line
  | this o line => exact Machine.read_keeps o line
  | assign target value line =>
    exact .bind (hpart (by simp; omega)) fun v =>
      .bind (Machine.write_keeps target v line) fun _ => .pure v
  | get object name line =>
    refine .bind (hpart (by simp; omega)) fun v => ?_
    cases v with
    | object id => exact Machine.property_keeps id name line
    | _ => exact .failRuntime line _
  | set object name value line =>
    refine .bind (hpart (by simp; omega)) fun v => ?_
    cases v with
    | object id =>
      exact .bind (hpart (by simp; omega)) fun v =>
        .bind (Machine.setField_keeps id name v) fun _ => .pure v
    | _ => exact .failRuntime line _
  | call callee arguments line =>
    have harguments : (Lox.evaluateAll fuel arguments).Keeps (Ready bound limit left)
        (sizeOf (Expr.call callee arguments line) + callCost bound left ≤ fuel + 1) :=
      (ih.evaluateAll arguments left).of_enough (by simp only [Expr.call.sizeOf_spec]; omega)
    refine .bind (hpart (by simp; omega)) fun v => ?_
    cases v.callable? with
    | none => exact .failRuntime line _
    | some c =>
      refine .look fun arity => .ite (.failRuntime line _) (.bind harguments fun vs => ?_)
      exact (ih.call c vs line left).of_enough (by simp only [Expr.call.sizeOf_spec]; omega)

theorem evaluateAll_succ (ih : Finishes bound limit fuel) (es : List Expr) (left : Nat) :
    (Lox.evaluateAll (fuel + 1) es).Keeps (Ready bound limit left)
      (sizeOf es + callCost bound left ≤ fuel + 1) := by
  cases es with
  | nil => exact .pure []
  | cons e rest =>
    refine .bind ((ih.evaluate e left).of_enough ?_) fun v =>
      .bind ((ih.evaluateAll rest left).of_enough ?_) fun vs => .pure (v :: vs)
    all_goals
      simp only [List.cons.sizeOf_spec]
      omega

/-- Every way into a body leaves room for one call less. -/
theorem call_succ (ih : Finishes bound limit fuel) (c : Callable) (vs : List Value)
    (line left : Nat) : (Lox.call (fuel + 1) c vs line).Keeps (Ready bound limit left)
      (callCost bound left ≤ fuel + 1) := by
  have hbody {f : Function} (hf : f.Fits bound) (rest : Nat) (hrest : left = rest + 1) :
      (Lox.callFunction fuel f vs line).Keeps (Ready bound limit rest)
        (callCost bound left ≤ fuel + 1) :=
    (ih.callFunction vs line rest hf).of_enough (by rw [hrest, callCost_succ]; omega)
  cases c with
  | native n =>
    cases n
    exact Machine.asCall_keeps line fun _ _ => Machine.tick_keeps
  | function id =>
    exact Machine.asCall_keeps line fun rest hrest =>
      .inspect (fun _ h => h.function id) fun f hf => hbody hf rest hrest
  | classObject id =>
    refine Machine.asCall_keeps line fun rest hrest =>
      .bind (Machine.allocate_keeps fun _ h => h) fun receiver => .look fun method? => ?_
    cases method? with
    | none => exact .pure _
    | some method =>
      exact .bind (Machine.bindMethod_keeps method receiver) fun bound' =>
        .inspect (fun _ h => h.function bound') fun f hf =>
          .bind (hbody hf rest hrest) fun _ => .pure _

theorem callFunction_succ (ih : Finishes bound limit fuel) {f : Function} (vs : List Value)
    (line left : Nat) (hf : f.Fits bound) :
    (Lox.callFunction (fuel + 1) f vs line).Keeps (Ready bound limit left)
      (bound + 2 + callCost bound left ≤ fuel + 1) := by
  have hsize := hf.2
  have hbody : (Lox.executeAll fuel f.decl.body).Keeps (Ready bound limit left)
      (bound + 2 + callCost bound left ≤ fuel + 1) :=
    (ih.executeAll left hf.1 hf.2).of_enough (by omega)
  refine .bind (Machine.allocate_keeps fun _ h => h) fun frame =>
    .bind (Machine.defineAll_keeps frame _) fun _ =>
      .bind (Machine.inFrame_keeps frame hbody) fun signal => ?_
  cases signal with
  | normal => exact .pure _
  | returned v => exact .pure v
  | exit e => exact .look fun text => .fail line _

theorem execute_succ (ih : Finishes bound limit fuel) {s : Stmt} (left : Nat) (hs : s.LoopFree)
    (hb : sizeOf s ≤ bound) : (Lox.execute (fuel + 1) s).Keeps (Ready bound limit left)
      (sizeOf s + callCost bound left ≤ fuel + 1) := by
  have hvalue {e : Expr} (h : sizeOf e < sizeOf s) : (Lox.evaluate fuel e).Keeps
      (Ready bound limit left) (sizeOf s + callCost bound left ≤ fuel + 1) :=
    (ih.evaluate e left).of_enough (by omega)
  have hpart {part : Stmt} (hp : part.LoopFree) (h : sizeOf part < sizeOf s) :
      (Lox.execute fuel part).Keeps (Ready bound limit left)
        (sizeOf s + callCost bound left ≤ fuel + 1) :=
    (ih.execute left hp (by omega)).of_enough (by omega)
  cases s with
  | expression e line => exact .bind (hvalue (by simp; omega)) fun _ => .pure _
  | print e line =>
    exact .bind (hvalue (by simp; omega)) fun v => .look fun text =>
      .bind (Machine.print_keeps text) fun _ => .pure _
  | var decl =>
    exact .bind ((ih.declareVar decl left).of_enough (by simp only [Stmt.var.sizeOf_spec]; omega))
      fun _ => .pure _
  | function decl =>
    have hfits : ∀ frame, Function.Fits bound ⟨decl, frame⟩ :=
      Function.fits_of_decl hs (by simp only [Stmt.function.sizeOf_spec] at hb; omega)
    exact .look fun frame =>
      .bind (Machine.allocate_keeps fun h hh => hh.addFunction (hfits frame)) fun id =>
        .bind (Machine.define_keeps _ _ _) fun _ => .pure _
  | classDecl name methods line =>
    have hfits (frame : FrameId) : ∀ d ∈ methods, Function.Fits bound ⟨d, frame⟩ := by
      intro d hd
      have hlt := List.sizeOf_lt_of_mem hd
      refine Function.fits_of_decl (methodsLoopFree_iff.1 hs d hd) ?_ frame
      simp only [Stmt.classDecl.sizeOf_spec] at hb
      omega
    exact .bind (Machine.define_keeps _ _ _) fun _ => .look fun frame =>
      .bind (Machine.allocate_keeps fun h hh => hh.addMethods (hfits frame) []) fun table =>
        .bind (Machine.allocate_keeps fun _ h => h) fun id =>
          .bind (Machine.assignHere_keeps _ _) fun _ => .pure _
  | block statements line =>
    refine Machine.inNewFrame_keeps ((ih.executeAll left hs ?_).of_enough ?_)
    all_goals
      simp only [Stmt.block.sizeOf_spec] at hb ⊢
      omega
  | ifThen condition thenBranch line =>
    exact .bind (hvalue (by simp; omega)) fun v => .ite (hpart hs (by simp; omega)) (.pure _)
  | ifElse condition thenBranch elseBranch line =>
    exact .bind (hvalue (by simp; omega)) fun v =>
      .ite (hpart hs.1 (by simp; omega)) (hpart hs.2 (by simp; omega))
  | whileLoop condition body line => exact hs.elim
  | forLoop init condition increment body line => exact hs.elim
  | loopExit exit line => exact .pure _
  | returns value line =>
    cases value with
    | none => exact .pure _
    | some e => exact .bind (hvalue (by simp; omega)) fun v => .pure _

theorem declareVar_succ (ih : Finishes bound limit fuel) (decl : VarDecl) (left : Nat) :
    (Lox.declareVar (fuel + 1) decl).Keeps (Ready bound limit left)
      (sizeOf decl + callCost bound left ≤ fuel + 1) := by
  rcases decl with ⟨name, init, line⟩
  cases init with
  | none => exact Machine.define_keeps name .nil line
  | some e =>
    refine .bind ((ih.evaluate e left).of_enough ?_) fun v => Machine.define_keeps name v line
    simp only [VarDecl.mk.sizeOf_spec, Option.some.sizeOf_spec]
    omega

theorem executeAll_succ (ih : Finishes bound limit fuel) {statements : List Stmt} (left : Nat)
    (hs : statementsLoopFree statements) (hb : sizeOf statements ≤ bound + 1) :
    (Lox.executeAll (fuel + 1) statements).Keeps (Ready bound limit left)
      (sizeOf statements + callCost bound left ≤ fuel + 1) := by
  cases statements with
  | nil => exact .pure _
  | cons s rest =>
    simp only [List.cons.sizeOf_spec] at hb ⊢
    refine .bind ((ih.execute left hs.1 (by omega)).of_enough (by omega)) fun signal => ?_
    cases signal with
    | normal => exact (ih.executeAll left hs.2 (by omega)).of_enough (by omega)
    | _ => exact .pure _

end Finishes

theorem finishes (bound limit fuel : Nat) : Finishes bound limit fuel := by
  induction fuel with
  | zero => exact .zero
  | succ fuel ih =>
    exact {
      evaluate := ih.evaluate_succ
      evaluateAll := ih.evaluateAll_succ
      call := ih.call_succ
      callFunction := ih.callFunction_succ
      execute := ih.execute_succ
      declareVar := ih.declareVar_succ
      executeAll := ih.executeAll_succ }

theorem executeProgram_keeps {bound : Nat} (limit left fuel : Nat) {program : List Stmt}
    (hp : statementsLoopFree program) (hb : sizeOf program ≤ bound) :
    (Machine.executeProgram fuel program).Keeps (Ready bound limit left)
      (sizeOf program + callCost bound left ≤ fuel) := by
  induction program with
  | nil => exact .pure ()
  | cons s rest ih =>
    simp only [List.cons.sizeOf_spec] at hb ⊢
    have hfirst := (finishes bound limit fuel).execute left hp.1 (by omega)
    refine .bind (hfirst.of_enough (by omega)) fun signal => ?_
    cases signal with
    | normal => exact (ih hp.2 (by omega)).of_enough (by omega)
    | _ => exact .look fun text => .fail _ _

/-! Runs of sources. -/

/-- A machine with the call limit, fresh or after runs of good sources. Some of the runs may have
failed. -/
inductive Machine.RanOnly (good : String → Prop) : Machine → Prop where
  | start (sink : Sink) (clock : Nat → Float) :
    RanOnly good (Machine.start (some callLimit) sink clock)
  | run {fuel : Nat} {source : String} {m m' : Machine} {f? : Option Failure} : m.RanOnly good →
    good source → m.run fuel source = some (f?, m') → m'.RanOnly good

namespace Machine

variable {bound limit fuel : Nat} {program : List Stmt} {m m' : Machine}

/-- No call is active behind a program. -/
theorem Ready.interpret (hm : m.Ready bound limit limit) (hp : statementsLoopFree program)
    (hb : sizeOf program ≤ bound) {d? : Option Diagnostic}
    (h : m.interpret fuel program = some (d?, m')) : m'.Ready bound limit limit := by
  have hrun := executeProgram_keeps limit limit fuel hp hb m hm
  unfold Machine.interpret at h
  generalize executeProgram fuel program m = r at hrun h
  cases hrun with
  | done hlast =>
    cases h
    exact hlast
  | failed hlast =>
    cases h
    exact ⟨hlast.limited, Nat.zero_add _, hlast.functions⟩
  | outOfFuel => cases h

theorem Ready.interpret_isSome (hm : m.Ready bound limit limit) (hp : statementsLoopFree program)
    (hb : sizeOf program ≤ bound) (hf : sizeOf program + callCost bound limit ≤ fuel) :
    (m.interpret fuel program).isSome := by
  have hrun := executeProgram_keeps limit limit fuel hp hb m hm
  unfold Machine.interpret
  generalize executeProgram fuel program m = r at hrun
  cases hrun with
  | done => rfl
  | failed => rfl
  | outOfFuel hspent => exact absurd hf hspent

theorem RanOnly.ready (h : m.RanOnly Source.LoopFree) :
    ∃ bound, m.Ready bound callLimit callLimit := by
  induction h with
  | start sink clock => exact ⟨0, rfl, Nat.zero_add _, fun f hf => absurd hf (Array.not_mem_empty f)⟩
  | @run fuel source m m' f? _ hs hrun ih =>
    obtain ⟨bound, hm⟩ := ih
    obtain ⟨f, -, -, rfl⟩ | ⟨program, d?, hc, hlast, -⟩ := run_eq_some.1 hrun
    · exact ⟨bound, hm⟩
    · exact ⟨max bound (sizeOf program), (hm.mono (Nat.le_max_left ..)).interpret
        (compile_loopFree hs hc) (Nat.le_max_right ..) hlast⟩

end Machine

/-- Without loops every run comes to an end, however functions, methods and constructors call one
another, on a machine that only sources without loops ran on. -/
theorem run_finishes {m : Machine} (hm : m.RanOnly Source.LoopFree) {source : String}
    (hs : Source.LoopFree source) :
    ∃ enough, ∀ fuel, enough ≤ fuel → (m.run fuel source).isSome := by
  obtain ⟨bound, hready⟩ := hm.ready
  unfold Machine.run
  cases hc : compile source with
  | error f => exact ⟨0, fun _ _ => rfl⟩
  | ok program =>
    refine ⟨sizeOf program + callCost (max bound (sizeOf program)) callLimit, fun fuel hf => ?_⟩
    rw [Option.isSome_map]
    exact (hready.mono (Nat.le_max_left ..)).interpret_isSome (compile_loopFree hs hc)
      (Nat.le_max_right ..) hf

/-- A constructor and a function that call each other without end. -/
def endlessSource : String :=
  "fun f() \x7b return A(); \x7d class A \x7b init() \x7b this.a = f(); \x7d \x7d"

theorem run_finishes_endless :
    ∃ m f?, (Machine.start (some callLimit) .unlimited fun _ => 0).run 16 endlessSource =
        some (f?, m) ∧
      ∃ enough, ∀ fuel, enough ≤ fuel → (m.run fuel "f();").isSome := by
  have hrun : ((Machine.start (some callLimit) .unlimited fun _ => 0).run 16 endlessSource).isSome :=
    by cbv
  obtain ⟨⟨f?, m⟩, h⟩ := Option.isSome_iff_exists.1 hrun
  have hfirst : Source.LoopFree endlessSource := Source.loopFree_of_all (by cbv)
  have hsecond : Source.LoopFree "f();" := Source.loopFree_of_all (by cbv)
  exact ⟨m, f?, h, run_finishes (.run (.start _ _) hfirst h) hsecond⟩

end Lox
