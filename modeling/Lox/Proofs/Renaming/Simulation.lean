import Lox.Proofs.Renaming.Lockstep

/-! Evaluation of code with other names for local variables keeps in step, and so does a program. -/
namespace Lox.Lexical
open Lox.Action

/-- Beside how the statements end, the names behind them. -/
def EndsBehind (x y : String) (env : Env) (R : Naming) (r r' : Signal × Env) : Prop :=
  r.1 = r'.1 ∧ env.Behind x y R r.2 r'.2

/-- The evaluations at one amount of fuel keep in step. -/
structure EvaluationsInStep (x y : String) (fuel : Nat) : Prop where
  evaluate {R : Naming} {env env' : Env} {e e' : Expr} : env.Renamed x y R env' → e.Renamed R e' →
    InStep x y Eq (evaluate fuel env e) (evaluate fuel env' e')
  evaluateAll {R : Naming} {env env' : Env} {es es' : List Expr} : env.Renamed x y R env' →
    ArgumentsRenamed R es es' → InStep x y (fun vs vs' => vs = vs' ∧ vs.length = es.length)
      (evaluateAll fuel env es) (evaluateAll fuel env' es')
  call (c : Callable) (vs : List Value) (line : Nat) :
    InStepFrom x y (fun s => c.arity s.objects = vs.length) Eq (call fuel c vs line)
      (call fuel c vs line)
  callFunction {c c' : Closure} (vs : List Value) : c.Renamed x y c' →
    c.decl.params.length = vs.length →
      InStep x y Eq (callFunction fuel c vs) (callFunction fuel c' vs)
  execute {R R' : Naming} {env env' : Env} {s s' : Stmt} : env.Renamed x y R env' →
    Stmt.Renamed x y R s s' R' → (env = .top → R' = R) →
      InStep x y (EndsBehind x y env R') (execute fuel env s) (execute fuel env' s')
  declareVar {R R' : Naming} {env env' : Env} {decl decl' : VarDecl} : env.Renamed x y R env' →
    decl.Renamed x y R decl' R' → (env = .top → R' = R) →
      InStep x y (env.Behind x y R') (declareVar fuel env decl) (declareVar fuel env' decl')
  executeAll {R : Naming} {env env' : Env} {l l' : List Stmt} : env.Renamed x y R env' →
    env ≠ .top → StatementsRenamed x y R l l' →
      InStep x y Eq (executeAll fuel env l) (executeAll fuel env' l')
  holds {R : Naming} {env env' : Env} {e? e?' : Option Expr} : env.Renamed x y R env' →
    OptionalRenamed R e? e?' → InStep x y Eq (holds fuel env e?) (holds fuel env' e?')
  loop {R : Naming} {env env' : Env} {condition condition' increment increment' : Option Expr}
    {body body' : Stmt} : env.Renamed x y R env' → OptionalRenamed R condition condition' →
      OptionalRenamed R increment increment' → Stmt.Renamed x y R body body' R →
        InStep x y Eq (loop fuel env condition increment body)
          (loop fuel env' condition' increment' body')
  step {R : Naming} {env env' : Env} {e? e?' : Option Expr} : env.Renamed x y R env' →
    OptionalRenamed R e? e?' → InStep x y Eq (step fuel env e?) (step fuel env' e?')

namespace EvaluationsInStep

variable {x y : String} {fuel : Nat} {R R' : Naming} {env env' : Env}

theorem zero : EvaluationsInStep x y 0 where
  evaluate _ _ := .fuelSpent
  evaluateAll _ _ := .fuelSpent
  call _ _ _ := .fuelSpent
  callFunction _ _ _ := .fuelSpent
  execute _ _ _ := .fuelSpent
  declareVar _ _ _ := .fuelSpent
  executeAll _ _ _ := .fuelSpent
  holds _ _ := .fuelSpent
  loop _ _ _ _ := .fuelSpent
  step _ _ := .fuelSpent

section
variable (hy : y ≠ "this") (ih : EvaluationsInStep x y fuel)
include ih

/-- The arguments and the call itself. What takes arguments goes on taking as many while they are
evaluated, and where there are none to evaluate nothing happens. -/
theorem arguments (h : env.Renamed x y R env') {es es' : List Expr}
    (hes : ArgumentsRenamed R es es') (c : Callable) (line : Nat) :
    InStepFrom x y (fun s => c.arity s.objects = es.length) Eq
      (Lexical.evaluateAll fuel env es >>= fun vs => Lexical.call fuel c vs line)
      (Lexical.evaluateAll fuel env' es' >>= fun vs => Lexical.call fuel c vs line) := by
  have hvs := ih.evaluateAll h hes
  have hkeeps ⦃s t : Store⦄ ⦃vs : List Value⦄ (hn : c.arity s.objects = es.length)
      (hs : Lexical.evaluateAll fuel env es s = .done vs t) (hg : s.Grows t) :
      c.arity t.objects = es.length := by
    by_cases hnone : es = []
    · subst hnone
      cases fuel with
      | zero => cases hs
      | succ fuel =>
        cases hs
        exact hn
    · rw [hg.arity (by simpa [hn] using hnone), hn]
  have hfrom : InStepFrom x y (fun s => c.arity s.objects = es.length) _ _ _ :=
    fun _ _ _ hs => hvs trivial hs
  refine hfrom.bindKeeping (fun _ s => c.arity s.objects = es.length) hkeeps ?_
  rintro vs _ ⟨rfl, hlength⟩
  rw [← hlength]
  exact ih.call c vs line

include hy in
theorem evaluate_succ (h : env.Renamed x y R env') {e e' : Expr} (he : e.Renamed R e') :
    InStep x y Eq (Lexical.evaluate (fuel + 1) env e) (Lexical.evaluate (fuel + 1) env' e') := by
  cases he with
  | literal => exact .pure rfl
  | group hi => exact ih.evaluate h hi
  | unary hr => exact (ih.evaluate h hr).bindEq fun v => (plain_lift _ _).inStep _
  | @binary left left' op right right' line hl hr =>
    refine (ih.evaluate h hl).bindEq fun v => ?_
    cases op.settled? v with
    | some settled => exact .pure rfl
    | none => exact (ih.evaluate h hr).bindEq fun w => (plain_finish op v w line).inStep _
  | read ho | this ho =>
    simp only [Lexical.evaluate, h.read_eq ho.1]
    exact (plain_read _ _ _).inStep _
  | assign ho hv =>
    refine (ih.evaluate h hv).bindEq fun v => ?_
    rw [h.write_eq ho.1]
    exact ((plain_write _ _ _ _).inStep _).bindEq fun _ => .pure rfl
  | get ho =>
    refine (ih.evaluate h ho).bindEq fun v => ?_
    cases v with
    | object id => exact inStep_property hy id _ _
    | _ => exact (plain_fail _ _).inStep _
  | set ho hv =>
    refine (ih.evaluate h ho).bindEq fun v => ?_
    cases v with
    | object id =>
      exact (ih.evaluate h hv).bindEq fun w =>
        ((plain_setField id _ w).inStep _).bindEq fun _ => .pure rfl
    | _ => exact (plain_fail _ _).inStep _
  | @call callee callee' es es' line hc ha =>
    refine (ih.evaluate h hc).bindEq fun v => ?_
    cases v.callable? with
    | none => exact (plain_fail _ _).inStep _
    | some c =>
      -- The arity is that of the store which the arguments are evaluated on.
      have harity : InStepFrom x y (fun _ => True) Eq (inspect fun s => c.arity s.objects)
          (inspect fun s => c.arity s.objects) := .inspect fun _ _ hs => hs.arity_eq c
      refine harity.bindKeeping (fun n s => c.arity s.objects = n) ?_ ?_
      · intro s t n _ hs _
        cases hs
        rfl
      · rintro n _ rfl
        rw [ha.length_eq]
        by_cases hn : es.length ≠ n
        · simp only [if_pos hn]
          exact (plain_fail _ _).inStep _
        · simp only [if_neg hn]
          rw [not_ne_iff] at hn
          subst hn
          exact ih.arguments h ha c line

theorem evaluateAll_succ (h : env.Renamed x y R env') {es es' : List Expr}
    (hes : ArgumentsRenamed R es es') :
    InStep x y (fun vs vs' => vs = vs' ∧ vs.length = es.length)
      (Lexical.evaluateAll (fuel + 1) env es) (Lexical.evaluateAll (fuel + 1) env' es') := by
  cases hes with
  | nil => exact .pure ⟨rfl, rfl⟩
  | cons he hrest =>
    refine (ih.evaluate h he).bindEq fun v => (ih.evaluateAll h hrest).bind ?_
    rintro vs _ ⟨rfl, hlength⟩
    exact .pure ⟨rfl, congrArg (· + 1) hlength⟩

include hy in
theorem call_succ (c : Callable) (vs : List Value) (line : Nat) :
    InStepFrom x y (fun s => c.arity s.objects = vs.length) Eq (Lexical.call (fuel + 1) c vs line)
      (Lexical.call (fuel + 1) c vs line) := by
  cases c with
  | native n =>
    cases n
    exact .asCall (fun _ _ hp => hp) (plain_tick.inStep _)
  | function id =>
    refine .asCall (fun _ _ hp => hp) ?_
    intro s s' hn hs
    have hlength : (s.function id).decl.params.length = vs.length := by
      simpa only [Callable.arity, Function.arity, Store.function_objects] using hn
    exact ih.callFunction vs (hs.function id) hlength trivial hs
  | classObject id =>
    refine .asCall (fun _ _ hp => hp) ?_
    refine ((plain_addInstance id).inStep _).bindKeeping
      (fun _ s => (Callable.classObject id).arity s.objects = vs.length) ?_ ?_
    · intro s t receiver hn hs _
      cases hs
      exact hn
    rintro receiver _ rfl
    have hlook : InStepFrom x y
        (fun s => (Callable.classObject id).arity s.objects = vs.length) Eq
        (inspect (·.objects.initializer? id)) (inspect (·.objects.initializer? id)) :=
      .inspect fun _ _ hs => hs.initializer?_eq id
    refine hlook.bindKeeping
      (fun m? s => ∀ m ∈ m?, (s.function m).decl.params.length = vs.length) ?_ ?_
    · intro s t m? hn hs _ m hm
      cases hs
      simp only [Callable.arity, Heap.classArity, Option.mem_def.1 hm] at hn
      rw [← hn, Function.arity, Store.function_objects]
    rintro m? _ rfl
    cases m? with
    | none => exact .pure rfl
    | some method =>
      refine (InStepFrom.allocate (fun s => s.grows_bindMethod method receiver)
        fun _ _ hs => hs.bindMethod hy method receiver).bindKeeping
          (fun bound s => (s.function bound).decl.params.length = vs.length) ?_ ?_
      · intro s t bound hn hs _
        cases hs
        simp only [Store.decl_bindMethod]
        exact hn method rfl
      rintro bound _ rfl s s' hn hs
      exact ((ih.callFunction vs (hs.function bound) hn).bindEq fun _ => .pure rfl) trivial hs

theorem callFunction_succ {c c' : Closure} (vs : List Value) (hc : c.Renamed x y c')
    (hn : c.decl.params.length = vs.length) :
    InStep x y Eq (Lexical.callFunction (fuel + 1) c vs)
      (Lexical.callFunction (fuel + 1) c' vs) := by
  rcases c with ⟨decl, env⟩
  rcases c' with ⟨decl', env'⟩
  cases hc with
  | mk hd he =>
    cases hd with
    | mk hp hb =>
      refine (inStep_declareAll hp he.enter env.enter_ne_top vs hn).bind ?_
      rintro inner inner' ⟨hin, hne⟩
      refine (ih.executeAll hin hne hb).bindEq fun signal => ?_
      cases signal <;> exact .pure rfl

theorem declareVar_succ (h : env.Renamed x y R env') {decl decl' : VarDecl}
    (hd : decl.Renamed x y R decl' R') (htop : env = .top → R' = R) :
    InStep x y (env.Behind x y R') (Lexical.declareVar (fuel + 1) env decl)
      (Lexical.declareVar (fuel + 1) env' decl') := by
  cases hd with
  | mk hab hi =>
    have hname := h.name_of_top htop
    cases hi with
    | none => exact inStep_declare h hab hname .nil
    | some he => exact (ih.evaluate h he).bindEq fun v => inStep_declare h hab hname v

theorem executeAll_succ (h : env.Renamed x y R env') (hne : env ≠ .top) {l l' : List Stmt}
    (hl : StatementsRenamed x y R l l') :
    InStep x y Eq (Lexical.executeAll (fuel + 1) env l)
      (Lexical.executeAll (fuel + 1) env' l') := by
  cases hl with
  | nil => exact .pure rfl
  | cons hs hrest =>
    refine (ih.execute h hs fun ht => absurd ht hne).bind ?_
    rintro ⟨signal, inner⟩ ⟨_, inner'⟩ ⟨rfl, hb⟩
    cases signal with
    | normal => exact ih.executeAll hb.renamed (fun ht => hne (hb.top ht)) hrest
    | _ => exact .pure rfl

theorem holds_succ (h : env.Renamed x y R env') {e? e?' : Option Expr}
    (he : OptionalRenamed R e? e?') :
    InStep x y Eq (Lexical.holds (fuel + 1) env e?) (Lexical.holds (fuel + 1) env' e?') := by
  cases he with
  | none => exact .pure rfl
  | some he => exact (ih.evaluate h he).bindEq fun v => .pure rfl

theorem step_succ (h : env.Renamed x y R env') {e? e?' : Option Expr}
    (he : OptionalRenamed R e? e?') :
    InStep x y Eq (Lexical.step (fuel + 1) env e?) (Lexical.step (fuel + 1) env' e?') := by
  cases he with
  | none => exact .pure rfl
  | some he => exact (ih.evaluate h he).bindEq fun v => .pure rfl

theorem loop_succ (h : env.Renamed x y R env')
    {condition condition' increment increment' : Option Expr} {body body' : Stmt}
    (hc : OptionalRenamed R condition condition') (hn : OptionalRenamed R increment increment')
    (hb : Stmt.Renamed x y R body body' R) :
    InStep x y Eq (Lexical.loop (fuel + 1) env condition increment body)
      (Lexical.loop (fuel + 1) env' condition' increment' body') := by
  refine (ih.holds h hc).bindEq fun b => ?_
  cases b with
  | false => exact .pure rfl
  | true =>
    have hnext : InStep x y Eq _ _ :=
      (ih.step h hn).bindEq fun _ => ih.loop h hc hn hb
    refine (ih.execute h hb fun _ => rfl).bind ?_
    rintro ⟨signal, inner⟩ ⟨_, inner'⟩ ⟨rfl, -⟩
    cases signal with
    | normal => exact hnext
    | returned v => exact .pure rfl
    | exit e =>
      cases e with
      | toEnd => exact .pure rfl
      | toNext => exact hnext

theorem execute_succ (h : env.Renamed x y R env') {s s' : Stmt}
    (hs : Stmt.Renamed x y R s s' R') (htop : env = .top → R' = R) :
    InStep x y (EndsBehind x y env R') (Lexical.execute (fuel + 1) env s)
      (Lexical.execute (fuel + 1) env' s') := by
  have hsame : env.Behind x y R env env' := ⟨h, id⟩
  cases hs with
  | expression he => exact (ih.evaluate h he).bindEq fun v => .pure ⟨rfl, hsame⟩
  | print he =>
    refine (ih.evaluate h he).bindEq fun v => ?_
    have htext : InStep x y Eq (inspect fun s => v.text s.objects)
        (inspect fun s => v.text s.objects) := .inspect fun _ _ hs => hs.text_eq v
    exact htext.bindEq fun text => ((plain_print text).inStep _).bindEq fun _ => .pure ⟨rfl, hsame⟩
  | var hd => exact (ih.declareVar h hd htop).bind fun _ _ hb => .pure ⟨rfl, hb⟩
  | function hd => exact (inStep_declareFunction h hd).bind fun _ _ hb => .pure ⟨rfl, hb⟩
  | @classDecl _ name methods methods' line hm =>
    refine (inStep_declare h (.kept name) (fun _ => rfl) .nil).bind fun inner inner' hb => ?_
    have htable : InStep x y Eq (allocate (·.addMethods inner methods []))
        (allocate (·.addMethods inner' methods' [])) :=
      .allocate (fun s => Store.grows_addMethods inner methods s [])
        fun _ _ hs => hs.addMethods hm hb.renamed []
    refine htable.bindEq fun table => ((plain_addClass ⟨name, table⟩).inStep _).bindEq fun id => ?_
    rw [hb.renamed.assignHere_eq (.inl ⟨rfl, rfl⟩)]
    exact ((plain_assignHere inner name _).inStep _).bindEq fun _ => .pure ⟨rfl, hb⟩
  | block hl =>
    exact (ih.executeAll h.enter env.enter_ne_top hl).bindEq fun signal => .pure ⟨rfl, hsame⟩
  | ifThen hc ht =>
    refine (ih.evaluate h hc).bindEq fun v => ?_
    cases v.isTruthy with
    | true => exact ih.execute h ht fun _ => rfl
    | false => exact .pure ⟨rfl, hsame⟩
  | ifElse hc ht he =>
    refine (ih.evaluate h hc).bindEq fun v => ?_
    cases v.isTruthy with
    | true => exact ih.execute h ht fun _ => rfl
    | false => exact ih.execute h he fun _ => rfl
  | whileLoop hc hb =>
    exact (ih.loop h (.some hc) .none hb).bindEq fun signal => .pure ⟨rfl, hsame⟩
  | forLoop hi hc hn hb =>
    cases hi with
    | nothing => exact (ih.loop h hc hn hb).bindEq fun signal => .pure ⟨rfl, hsame⟩
    | evaluate he =>
      exact (ih.evaluate h he).bindEq fun _ =>
        (ih.loop h hc hn hb).bindEq fun signal => .pure ⟨rfl, hsame⟩
    | declare hd =>
      have hinner := ih.declareVar h.enter hd fun ht => absurd ht env.enter_ne_top
      exact hinner.bind fun _ _ hin =>
        (ih.loop hin.renamed hc hn hb).bindEq fun signal => .pure ⟨rfl, hsame⟩
  | loopExit => exact .pure ⟨rfl, hsame⟩
  | returns hv =>
    cases hv with
    | none => exact .pure ⟨rfl, hsame⟩
    | some he => exact (ih.evaluate h he).bindEq fun v => .pure ⟨rfl, hsame⟩

end

theorem succ (hy : y ≠ "this") (ih : EvaluationsInStep x y fuel) :
    EvaluationsInStep x y (fuel + 1) where
  evaluate h he := ih.evaluate_succ hy h he
  evaluateAll h hes := ih.evaluateAll_succ h hes
  call c vs line := ih.call_succ hy c vs line
  callFunction vs hc hn := ih.callFunction_succ vs hc hn
  execute h hs htop := ih.execute_succ h hs htop
  declareVar h hd htop := ih.declareVar_succ h hd htop
  executeAll h hne hl := ih.executeAll_succ h hne hl
  holds h he := ih.holds_succ h he
  loop h hc hn hb := ih.loop_succ h hc hn hb
  step h he := ih.step_succ h he

end EvaluationsInStep

theorem evaluationsInStep {x y : String} (hy : y ≠ "this") (fuel : Nat) :
    EvaluationsInStep x y fuel := by
  induction fuel with
  | zero => exact .zero
  | succ fuel ih => exact ih.succ hy

/-! Programs. -/

theorem inStep_executeProgram {x y : String} (hy : y ≠ "this") {program program' : List Stmt}
    (h : ProgramRenamed x y program program') (fuel : Nat) :
    InStep x y Eq (executeProgram fuel program) (executeProgram fuel program') := by
  induction h with
  | nil => exact .pure rfl
  | cons hs _ ih =>
    exact ((evaluationsInStep hy fuel).execute (.refl .top) hs fun _ => rfl).bind fun _ _ _ => ih

/-- The programs end alike on one store, with what is around it as well. -/
theorem Store.interpret_worlds {x y : String} (hy : y ≠ "this") {program program' : List Stmt}
    (h : ProgramRenamed x y program program') (fuel : Nat) (s : Store) :
    (s.interpret fuel program').map (fun r => (r.1, r.2.toWorld)) =
      (s.interpret fuel program).map fun r => (r.1, r.2.toWorld) := by
  have hr := inStep_executeProgram hy h fuel trivial (.refl s)
  unfold interpret
  generalize executeProgram fuel program s = r, executeProgram fuel program' s = r' at hr
  cases hr with
  | done _ _ ht => simp [ht.toWorld_eq]
  | failed ht => simp [ht.toWorld_eq]
  | outOfFuel => rfl

end Lox.Lexical
