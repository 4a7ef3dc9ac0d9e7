import Lox.Proofs.Loops.Rounds

/-! Code that does the same, run on stores that are alike: the one run follows the other. -/
namespace Lox.Lexical
open Lox.Action

/-- Evaluations with this much fuel are followed by those of code that does the same. -/
structure EvaluationsFollow (fuel : Nat) : Prop where
  evaluate (env : Env) (e : Expr) : Follows (evaluate fuel env e) fun n => evaluate n env e
  evaluateAll (env : Env) (es : List Expr) :
    Follows (evaluateAll fuel env es) fun n => evaluateAll n env es
  call (c : Callable) (vs : List Value) (line : Nat) :
    Follows (call fuel c vs line) fun n => call n c vs line
  callFunction {c c' : Closure} (hc : c.Alike c') (vs : List Value) :
    Follows (callFunction fuel c vs) fun n => callFunction n c' vs
  execute {mode : Mode} {env : Env} {before : Action Store Unit}
    {behind : Nat → Action Store Unit} {s s' : Stmt} (ht : Turns mode env before behind)
    (hs : Stmt.Alike mode s s') : Follows (closing Prod.fst before (execute fuel env s))
      fun n => closing Prod.fst (behind n) (execute n env s')
  executeAll {mode : Mode} {env : Env} {before : Action Store Unit}
    {behind : Nat → Action Store Unit} {l l' : List Stmt} (ht : Turns mode env before behind)
    (hl : StatementsAlike mode l l') : Follows (closing id before (executeAll fuel env l))
      fun n => closing id (behind n) (executeAll n env l')

namespace EvaluationsFollow

theorem zero : EvaluationsFollow 0 where
  evaluate _ _ := .fuelSpent
  evaluateAll _ _ := .fuelSpent
  call _ _ _ := .fuelSpent
  callFunction _ _ := .fuelSpent
  execute _ _ := .of_spent fun _ => rfl
  executeAll _ _ := .of_spent fun _ => rfl

section
variable {fuel : Nat} (hf : EvaluationsFollow fuel) {env : Env}
include hf

theorem execute_plain {s s' : Stmt} (hs : Stmt.Alike .plain s s') :
    Follows (Lexical.execute fuel env s) fun n => Lexical.execute n env s' := by
  have ht : Turns .plain env (pure ()) fun _ => pure () := .plain
  have h := hf.execute ht hs
  simpa only [closing_idle] using h

theorem executeAll_plain {l l' : List Stmt} (hl : StatementsAlike .plain l l') :
    Follows (Lexical.executeAll fuel env l) fun n => Lexical.executeAll n env l' := by
  have ht : Turns .plain env (pure ()) fun _ => pure () := .plain
  have h := hf.executeAll ht hl
  simpa only [closing_idle] using h

theorem evaluate_succ (e : Expr) :
    Follows (Lexical.evaluate (fuel + 1) env e) fun n => Lexical.evaluate n env e := by
  apply Follows.of_add 1
  cases e with
  | literal value line => exact .pure _
  | group inner line => exact hf.evaluate env inner
  | unary op right line =>
    exact (hf.evaluate env right).bind fun v _ => (ignoresFunctions_lift line _).follows
  | binary left op right line =>
    apply (hf.evaluate env left).bind
    intro v _
    cases op.settled? v with
    | some settled => exact .pure _
    | none =>
      exact (hf.evaluate env right).bind fun w _ => (ignoresFunctions_finish op v w line).follows
  | read o line | this o line => exact (ignoresFunctions_read env o.name line).follows
  | assign target value line =>
    apply (hf.evaluate env value).bind
    intro v _
    exact (ignoresFunctions_write env target.name v line).follows.bind fun _ _ => .pure _
  | get object name line =>
    apply (hf.evaluate env object).bind
    intro v _
    cases v with
    | object id => exact follows_property id name line
    | _ => exact (ignoresFunctions_fail line _).follows
  | set object name value line =>
    apply (hf.evaluate env object).bind
    intro v _
    cases v with
    | object id =>
      apply (hf.evaluate env value).bind
      intro w _
      exact (ignoresFunctions_setField id name w).follows.bind fun _ _ => .pure _
    | _ => exact (ignoresFunctions_fail line _).follows
  | call callee arguments line =>
    apply (hf.evaluate env callee).bind
    intro v _
    cases v.callable? with
    | none => exact (ignoresFunctions_fail line _).follows
    | some c =>
      apply (follows_inspect fun s s' hs => hs.arity_eq c).bind
      intro arity _
      by_cases ha : arguments.length ≠ arity
      · simp only [if_pos ha]
        exact (ignoresFunctions_fail line _).follows
      · simp only [if_neg ha]
        exact (hf.evaluateAll env arguments).bind fun vs _ => hf.call c vs line

theorem evaluateAll_succ (es : List Expr) :
    Follows (Lexical.evaluateAll (fuel + 1) env es) fun n => Lexical.evaluateAll n env es := by
  apply Follows.of_add 1
  cases es with
  | nil => exact .pure _
  | cons e rest =>
    apply (hf.evaluate env e).bind
    intro v _
    exact (hf.evaluateAll env rest).bind fun vs _ => .pure _

theorem call_succ (c : Callable) (vs : List Value) (line : Nat) :
    Follows (Lexical.call (fuel + 1) c vs line) fun n => Lexical.call n c vs line := by
  apply Follows.of_add 1
  cases c with
  | native n =>
    cases n
    exact ignoresFunctions_tick.follows.asCall
  | function id => exact (Follows.function fun c c' hc => hf.callFunction hc vs).asCall
  | classObject id =>
    apply Follows.asCall
    apply (ignoresFunctions_addInstance id).follows.bind
    intro receiver _
    have hinitializer ⦃s s' : Store⦄ (hs : s.Alike s') :
        s'.objects.initializer? id = s.objects.initializer? id := by
      cases hs
      rfl
    apply (follows_inspect hinitializer).bind
    intro initializer? _
    cases initializer? with
    | none => exact .pure _
    | some method =>
      apply (follows_allocate fun _ _ hs => hs.bindMethod method receiver).bind
      intro bound _
      apply Follows.function
      intro c c' hc
      exact (hf.callFunction hc vs).bind fun _ _ => .pure _

theorem callFunction_succ {c c' : Closure} (hc : c.Alike c') (vs : List Value) :
    Follows (Lexical.callFunction (fuel + 1) c vs) fun n => Lexical.callFunction n c' vs := by
  apply Follows.of_add 1
  have hparams := hc.decl.params_eq
  simp only [Lexical.callFunction, hc.env, hparams]
  apply (follows_declareAll _ _).bind
  intro env' _
  apply (hf.executeAll_plain hc.decl.body).bind
  intro signal _
  cases signal <;> exact .pure _

end

/-! Clauses of loops. -/

section
variable {fuel : Nat} (hf : ∀ m ≤ fuel, EvaluationsFollow m) {env : Env}
include hf

theorem follows_step (increment : Option Expr) :
    Follows (step fuel env increment) fun n => step n env increment := by
  cases fuel with
  | zero => exact .fuelSpent
  | succ m =>
    apply Follows.of_add 1
    cases increment with
    | none => exact .pure _
    | some e => exact ((hf m (by omega)).evaluate env e).bind fun _ _ => .pure _

theorem follows_holds (condition : Option Expr) :
    Follows (holds fuel env condition) fun n => holds n env condition := by
  cases fuel with
  | zero => exact .fuelSpent
  | succ m =>
    apply Follows.of_add 1
    cases condition with
    | none => exact .pure _
    | some e => exact ((hf m (by omega)).evaluate env e).bind fun _ _ => .pure _

theorem follows_declareVar (decl : VarDecl) :
    Follows (declareVar fuel env decl) fun n => declareVar n env decl := by
  cases fuel with
  | zero => exact .fuelSpent
  | succ m =>
    apply Follows.of_add 1
    rcases decl with ⟨name, initializer, line⟩
    cases initializer with
    | none => exact (ignoresFunctions_declare env name .nil).follows
    | some e =>
      apply ((hf m (by omega)).evaluate env e).bind
      intro v _
      exact (ignoresFunctions_declare env name v).follows

/-! Rounds of loops that are alike, and of a loop and its rewriting. -/

theorem follows_round {body body' : Stmt} (increment : Option Expr)
    (hb : Stmt.Alike .plain body body') :
    Follows (round fuel env increment body) fun n => round n env increment body' := by
  apply ((hf fuel (Nat.le_refl _)).execute_plain hb).bind
  intro r _
  have hstep : Follows (step fuel env increment) fun n => step n env increment :=
    follows_step hf increment
  rcases r with ⟨signal, env'⟩
  cases signal with
  | exit e =>
    cases e with
    | toEnd => exact .pure _
    | toNext => exact hstep.bind fun _ _ => .pure _
  | returned v => exact .pure _
  | normal => exact hstep.bind fun _ _ => .pure _

variable {env' : Env} {increment : Option Expr} {body body' : Stmt} {line : Nat}

theorem follows_round_right (he : env'.enter = env.enter) (hd : body.DeclaresNothing)
    (hd' : body'.DeclaresNothing) (hb : Stmt.Alike (.right increment) body body') :
    Follows (round fuel env increment body)
      fun n => round n env' none (.block (body' :: turnStatements line increment) line) := by
  have hstep : Follows (step fuel env.enter increment) fun n => step n env.enter increment :=
    follows_step hf increment
  have hbody := (hf fuel (Nat.le_refl _)).execute (.right hstep) hb
  simp only [closing_idle] at hbody
  rw [round_enter hd, round_eq_closing]
  apply Follows.of_add 2
  simp only [round_block, he, executeAll_body hd']
  apply hbody.bind
  intro r _
  rcases r with ⟨signal, _⟩
  cases signal with
  | normal =>
    have hend : Follows (pure .normal) fun n => Lexical.executeAll n env.enter [] :=
      .of_add 1 (.pure _)
    have hturn : Follows _ fun n =>
        Lexical.executeAll n env.enter (turnStatements line increment ++ []) :=
      (hstep.bind fun _ _ => hend).turn
    simpa only [List.append_nil] using hturn
  | _ => exact .pure _

theorem follows_round_left (he : env'.enter = env.enter) (hd : body.DeclaresNothing)
    (hd' : body'.DeclaresNothing) (hb : Stmt.Alike (.left increment) body body') :
    Follows (round fuel env none (.block (body :: turnStatements line increment) line))
      fun n => round n env' increment body' := by
  rcases fuel with _ | _ | m
  · exact .of_spent fun _ => rfl
  · exact .of_spent fun _ => rfl
  have hleft : Turns (.left increment) env.enter (pure ()) fun n => step n env.enter increment :=
    .left 0
  have hbody := (hf m (by omega)).execute hleft hb
  simp only [closing_idle] at hbody
  have hround (n : Nat) : round n env' increment body' = round n env.enter increment body' := by
    rw [round_enter hd', he]
  rw [round_block, executeAll_body hd]
  simp only [hround, round_eq_closing]
  apply hbody.bind
  intro r _
  rcases r with ⟨signal, _⟩
  cases signal with
  | normal =>
    have hturn : Follows
        (Lexical.executeAll m env.enter (turnStatements line increment ++ []))
        fun n => (do step n env.enter increment; pure Signal.normal) := by
      apply follows_turn
      intro i hi
      apply (follows_step (fun j hj => hf j (by omega)) increment).bind
      intro _ _
      cases i with
      | zero => exact .of_spent fun _ => rfl
      | succ => exact .pure _
    simpa only [List.append_nil] using hturn
  | _ => exact .pure _

theorem follows_holds_right (he : env'.enter = env.enter) (condition : Option Expr) :
    Follows (holds fuel env condition)
      fun n => holds n env' (some (condition.getD (.literal (.bool true) line))) := by
  cases condition with
  | some e =>
    simp only [Option.getD_some, holds_of_enter he]
    exact follows_holds hf (some e)
  | none =>
    cases fuel with
    | zero => exact .fuelSpent
    | succ m => exact .of_add 2 (.pure true)

theorem follows_holds_left (he : env'.enter = env.enter) (condition : Option Expr) :
    Follows (holds fuel env (some (condition.getD (.literal (.bool true) line))))
      fun n => holds n env' condition := by
  cases condition with
  | some e =>
    simp only [Option.getD_some, holds_of_enter he]
    exact follows_holds hf (some e)
  | none =>
    rcases fuel with _ | _ | m
    · exact .of_spent fun _ => rfl
    · exact .of_spent fun _ => rfl
    · exact .of_add 1 (.pure true)

theorem follows_loop_right (he : env'.enter = env.enter) (hd : body.DeclaresNothing)
    (hd' : body'.DeclaresNothing) (hb : Stmt.Alike (.right increment) body body')
    (condition : Option Expr) : Follows (loop fuel env condition increment body)
      fun n => loop n env' (some (condition.getD (.literal (.bool true) line))) none
        (.block (body' :: turnStatements line increment) line) := by
  apply follows_loop
  · intro m hm
    exact follows_holds_right (fun j hj => hf j (by omega)) he condition
  · intro m hm
    exact follows_round_right (fun j hj => hf j (by omega)) he hd hd' hb

theorem follows_loop_left (he : env'.enter = env.enter) (hd : body.DeclaresNothing)
    (hd' : body'.DeclaresNothing) (hb : Stmt.Alike (.left increment) body body')
    (condition : Option Expr) :
    Follows (loop fuel env (some (condition.getD (.literal (.bool true) line))) none
      (.block (body :: turnStatements line increment) line))
      fun n => loop n env' condition increment body' := by
  apply follows_loop
  · intro m hm
    exact follows_holds_left (fun j hj => hf j (by omega)) he condition
  · intro m hm
    exact follows_round_left (fun j hj => hf j (by omega)) he hd hd' hb

theorem execute_loop_right (init : ForInit) (hd : body.DeclaresNothing)
    (hd' : body'.DeclaresNothing) (hb : Stmt.Alike (.right increment) body body')
    (condition : Option Expr) :
    Follows (Lexical.execute (fuel + 1) env (.forLoop init condition increment body line))
      fun n => Lexical.execute n env (.asWhile init condition increment body' line) := by
  have hloop {env env' : Env} (he : env'.enter = env.enter) :
      Follows (loop fuel env condition increment body)
        fun n => loop n env' (some (condition.getD (.literal (.bool true) line))) none
          (.block (body' :: turnStatements line increment) line) :=
    follows_loop_right hf he hd hd' hb condition
  cases init with
  | nothing =>
    apply Follows.of_add 3
    simp only [Stmt.asWhile, ForInit.statements, List.nil_append, Lexical.execute,
      executeAll_whileLoop]
    exact (hloop env.enter_enter).bind fun signal _ => .pure (signal, env)
  | evaluate e =>
    have hinit : Follows (Lexical.evaluate fuel env e) fun n => Lexical.evaluate n env e :=
      (hf fuel (Nat.le_refl _)).evaluate env e
    apply Follows.of_add 4
    simp only [Stmt.asWhile, ForInit.statements, List.cons_append, List.nil_append,
      Lexical.execute, executeAll_expression, executeAll_whileLoop, step, evaluate_enter,
      Action.bind_assoc]
    apply (hinit.later 1).bind
    intro _ _
    exact (hloop env.enter_enter).bind fun signal _ => .pure (signal, env)
  | declare decl =>
    have hinit : Follows (declareVar fuel env.enter decl) fun n => declareVar n env.enter decl :=
      follows_declareVar hf decl
    apply Follows.of_add 4
    simp only [Stmt.asWhile, ForInit.statements, List.cons_append, List.nil_append,
      Lexical.execute, executeAll_var, executeAll_whileLoop, Action.bind_assoc]
    apply (hinit.later 1).bind
    intro inner _
    exact (hloop rfl).bind fun signal _ => .pure (signal, env)

theorem execute_loop_left (init : ForInit) (hd : body.DeclaresNothing)
    (hd' : body'.DeclaresNothing) (hb : Stmt.Alike (.left increment) body body')
    (condition : Option Expr) :
    Follows (Lexical.execute (fuel + 1) env (.asWhile init condition increment body line))
      fun n => Lexical.execute n env (.forLoop init condition increment body' line) := by
  -- the block and the statements in it spend fuel before the loop has any
  rcases fuel with _ | _ | _ | m
  · cases init <;> exact .of_spent fun _ => rfl
  · cases init <;> exact .of_spent fun _ => rfl
  · cases init <;> exact .of_spent fun _ => rfl
  have hloop {env env' : Env} (he : env'.enter = env.enter) {k : Nat} (hk : k ≤ m + 3) :
      Follows (loop k env (some (condition.getD (.literal (.bool true) line))) none
        (.block (body :: turnStatements line increment) line))
        fun n => loop n env' condition increment body' :=
    follows_loop_left (fun j hj => hf j (by omega)) he hd hd' hb condition
  apply Follows.of_add 1
  cases init with
  | nothing =>
    simp only [Stmt.asWhile, ForInit.statements, List.nil_append, Lexical.execute]
    rw [executeAll_whileLoop]
    exact (hloop env.enter_enter.symm (by omega)).bind fun signal _ => .pure (signal, env)
  | evaluate e =>
    have hinit : Follows (Lexical.evaluate (m + 1) env e) fun n => Lexical.evaluate n env e :=
      (hf (m + 1) (by omega)).evaluate env e
    simp only [Stmt.asWhile, ForInit.statements, List.cons_append, List.nil_append,
      Lexical.execute]
    rw [executeAll_expression, executeAll_whileLoop]
    simp only [step, evaluate_enter, Action.bind_assoc]
    apply hinit.bind
    intro _ _
    exact (hloop env.enter_enter.symm (by omega)).bind fun signal _ => .pure (signal, env)
  | declare decl =>
    have hinit : Follows (declareVar (m + 1) env.enter decl)
        fun n => declareVar n env.enter decl :=
      follows_declareVar (fun j hj => hf j (by omega)) decl
    simp only [Stmt.asWhile, ForInit.statements, List.cons_append, List.nil_append,
      Lexical.execute]
    rw [executeAll_var]
    simp only [executeAll_whileLoop, Action.bind_assoc]
    apply hinit.bind
    intro inner _
    exact (hloop rfl (by omega)).bind fun signal _ => .pure (signal, env)

end

/-! Statements. -/

section
variable {fuel : Nat} (hf : ∀ m ≤ fuel, EvaluationsFollow m) {env : Env}
variable {e e' : Expr} {e? e?' : Option Expr}
include hf

/-- Depths are of no account. -/
theorem evaluate_unplaced_eq (h : e.unplaced = e'.unplaced) :
    Follows (Lexical.evaluate fuel env e) fun n => Lexical.evaluate n env e' := by
  have hsame (n : Nat) : Lexical.evaluate n env e' = Lexical.evaluate n env e := by
    rw [← evaluate_unplaced env n e', ← h, evaluate_unplaced]
  simp only [hsame]
  exact (hf fuel (Nat.le_refl _)).evaluate env e

theorem declareVar_unplaced_eq {decl decl' : VarDecl} (h : decl.unplaced = decl'.unplaced) :
    Follows (declareVar fuel env decl) fun n => declareVar n env decl' := by
  have hsame (n : Nat) : declareVar n env decl' = declareVar n env decl := by
    rw [← declareVar_unplaced n env decl', ← h, declareVar_unplaced]
  simp only [hsame]
  exact follows_declareVar hf decl

theorem loop_alike {condition condition' increment increment' : Option Expr} {body body' : Stmt}
    (hc : condition.map Expr.unplaced = condition'.map Expr.unplaced)
    (hn : increment.map Expr.unplaced = increment'.map Expr.unplaced)
    (hb : Stmt.Alike .plain body body') : Follows (loop fuel env condition increment body)
      fun n => loop n env condition' increment' body' := by
  have hholds (n : Nat) : holds n env condition' = holds n env condition := by
    rw [← holds_unplaced n env condition', ← hc, holds_unplaced]
  have hround (n : Nat) : round n env increment' body' = round n env increment body' := by
    have hstep : step n env increment' = step n env increment := by
      rw [← step_unplaced n env increment', ← hn, step_unplaced]
    simp only [round, hstep]
  apply follows_loop
  · intro m hm
    simp only [hholds]
    exact follows_holds (fun j hj => hf j (by omega)) condition
  · intro m hm
    simp only [hround]
    exact follows_round (fun j hj => hf j (by omega)) increment hb

theorem execute_forLoop_alike {init init' : ForInit}
    {condition condition' increment increment' : Option Expr} {body body' : Stmt} {line : Nat}
    (hi : init.unplaced = init'.unplaced)
    (hc : condition.map Expr.unplaced = condition'.map Expr.unplaced)
    (hn : increment.map Expr.unplaced = increment'.map Expr.unplaced)
    (hb : Stmt.Alike .plain body body') :
    Follows (Lexical.execute (fuel + 1) env (.forLoop init condition increment body line))
      fun n => Lexical.execute n env (.forLoop init' condition' increment' body' line) := by
  have hloop {inner : Env} : Follows
      (do let signal ← loop fuel inner condition increment body; pure (signal, env))
      fun n => (do let signal ← loop n inner condition' increment' body'; pure (signal, env)) :=
    (loop_alike hf hc hn hb).bind fun signal _ => .pure (signal, env)
  apply Follows.of_add 1
  cases init with
  | nothing =>
    cases init' with
    | nothing => exact hloop
    | declare | evaluate => cases hi
  | declare decl =>
    cases init' with
    | declare decl' =>
      exact (declareVar_unplaced_eq hf (ForInit.declare.inj hi)).bind fun inner _ => hloop
    | nothing | evaluate => cases hi
  | evaluate e =>
    cases init' with
    | evaluate e' =>
      exact (evaluate_unplaced_eq hf (ForInit.evaluate.inj hi)).bind fun _ _ => hloop
    | nothing | declare => cases hi

variable {mode : Mode} {before : Action Store Unit} {behind : Nat → Action Store Unit}

/-- A `continue` that has the increment in front of it on the left. -/
theorem execute_continue_left {increment : Option Expr} {line line' : Nat}
    (ht : Turns (.left increment) env before behind) :
    Follows (closing Prod.fst before (Lexical.execute (fuel + 1) env
        (.block (turnStatements line' increment ++ [.loopExit .toNext line]) line)))
      fun n => closing Prod.fst (behind n)
        (Lexical.execute n env (.loopExit .toNext line)) := by
  cases ht with
  | left k =>
    have hturn : Follows (Lexical.executeAll fuel env.enter
        (turnStatements line' increment ++ [.loopExit .toNext line]))
        fun n => (do step n env increment; pure (Signal.exit .toNext)) := by
      apply follows_turn
      intro m hm
      simp only [step_enter]
      apply (follows_step (fun j hj => hf j (by omega)) increment).bind
      intro _ _
      rcases m with _ | _ | m
      · exact .of_spent fun _ => rfl
      · exact .of_spent fun _ => rfl
      · exact .pure _
    simp only [closing_idle]
    apply Follows.of_add 1
    have hblock := (hturn.later (1 + k)).bind fun signal _ => .pure (signal, env)
    simp only [Action.bind_assoc, ← Nat.add_assoc] at hblock
    exact hblock

theorem execute_succ {s s' : Stmt} (ht : Turns mode env before behind)
    (hs : Stmt.Alike mode s s') :
    Follows (closing Prod.fst before (Lexical.execute (fuel + 1) env s))
      fun n => closing Prod.fst (behind n) (Lexical.execute n env s') := by
  have hnow := hf fuel (Nat.le_refl _)
  cases hs with
  | expression he =>
    apply Follows.of_add 1
    simp only [Lexical.execute, closing_bind]
    exact (evaluate_unplaced_eq hf he).bind fun _ _ => .pure _
  | print he =>
    apply Follows.of_add 1
    simp only [Lexical.execute, closing_bind]
    apply (evaluate_unplaced_eq hf he).bind
    intro v _
    apply (follows_inspect fun s s' hs => hs.text_eq v).bind
    intro text _
    exact (ignoresFunctions_print text).follows.bind fun _ _ => .pure _
  | var hd =>
    apply Follows.of_add 1
    simp only [Lexical.execute, closing_bind]
    exact (declareVar_unplaced_eq hf hd).bind fun env' _ => .pure _
  | function hd =>
    apply Follows.of_add 1
    simp only [Lexical.execute, closing_bind]
    exact (follows_declareFunction env hd).bind fun env' _ => .pure _
  | @classDecl _ name methods methods' line hm =>
    apply Follows.of_add 1
    simp only [Lexical.execute, closing_bind]
    apply (ignoresFunctions_declare env name .nil).follows.bind
    intro env' _
    apply (follows_allocate fun _ _ hs => hs.addMethods hm env' []).bind
    intro table _
    apply (ignoresFunctions_addClass ⟨name, table⟩).follows.bind
    intro id _
    exact (ignoresFunctions_assignHere env' name (.classObject id)).follows.bind fun _ _ => .pure _
  | block hl =>
    apply Follows.of_add 1
    simp only [Lexical.execute, closing_with]
    exact (hnow.executeAll ht.enter.shift hl).bind fun signal _ => .pure _
  | ifThen hc hthen =>
    apply Follows.of_add 1
    simp only [Lexical.execute, closing_bind]
    apply (evaluate_unplaced_eq hf hc).bind
    intro v _
    cases v.isTruthy with
    | true => exact hnow.execute ht.shift hthen
    | false => exact .pure _
  | ifElse hc hthen helse =>
    apply Follows.of_add 1
    simp only [Lexical.execute, closing_bind]
    apply (evaluate_unplaced_eq hf hc).bind
    intro v _
    cases v.isTruthy with
    | true => exact hnow.execute ht.shift hthen
    | false => exact hnow.execute ht.shift helse
  | @whileLoop _ condition condition' body body' line hc hb =>
    have hcondition : (some condition).map Expr.unplaced = (some condition').map Expr.unplaced :=
      congrArg some hc
    have hloop : Follows (Lexical.execute (fuel + 1) env (.whileLoop condition body line))
        fun n => Lexical.execute n env (.whileLoop condition' body' line) :=
      .of_add 1 ((loop_alike hf hcondition rfl hb).bind fun signal _ => .pure _)
    -- a `continue` inside belongs to this loop, so that nothing is still to do behind it
    apply hloop.closing
    intro r hr
    obtain ⟨signal, hl, hr⟩ := hr.of_bind
    rw [hr.of_pure]
    exact hl.of_loop
  | forLoop hi hc hn hb =>
    exact (execute_forLoop_alike hf hi hc hn hb).closing (fun r hr => hr.of_forLoop.2) before behind
  | loopExit h =>
    apply Follows.of_add 1
    rcases h with rfl | rfl
    · cases ht
      simp only [closing_idle]
      exact .pure _
    · exact .pure _
  | @returns _ value value' line hv =>
    have hsame (n : Nat) : Lexical.execute n env (.returns value' line) =
        Lexical.execute n env (.returns value line) := by
      rw [← execute_returns_unplaced n env value', ← hv, execute_returns_unplaced]
    simp only [hsame]
    apply Follows.of_add 1
    cases value with
    | none => exact .pure _
    | some e =>
      simp only [Lexical.execute, closing_bind]
      exact (hnow.evaluate env e).bind fun v _ => .pure _
  | continueRight => exact execute_continue_right ht
  | continueLeft => exact execute_continue_left hf ht
  | loopRight hd hd' hb =>
    exact (execute_loop_right hf _ hd hd' hb _).closing (fun r hr => hr.of_forLoop.2) before behind
  | @loopLeft _ init condition increment body body' line hd hd' hb =>
    have hloop : Follows
        (Lexical.execute (fuel + 1) env (.asWhile init condition increment body line))
        fun n => Lexical.execute n env (.forLoop init condition increment body' line) :=
      execute_loop_left hf init hd hd' hb condition
    apply hloop.closing
    intro r hr
    obtain ⟨n, hn⟩ := hloop.gives hr
    cases n with
    | zero =>
      rcases hn with ⟨s, t, hn⟩
      cases hn
    | succ n => exact hn.of_forLoop.2

theorem executeAll_succ {l l' : List Stmt} (ht : Turns mode env before behind)
    (hl : StatementsAlike mode l l') :
    Follows (closing id before (Lexical.executeAll (fuel + 1) env l))
      fun n => closing id (behind n) (Lexical.executeAll n env l') := by
  have hnow := hf fuel (Nat.le_refl _)
  apply Follows.of_add 1
  cases hl with
  | nil => exact .pure _
  | cons hs hrest =>
    simp only [closing_executeAll]
    apply (hnow.execute ht.shift hs).bind
    intro r hr
    rcases r with ⟨signal, env'⟩
    cases signal with
    | normal =>
      -- the first statement may have declared names, but none of the increment
      have hmoved := ht.shift.moved fun name hn => find?_of_execute hs hr.of_closing hn
      exact hnow.executeAll hmoved hrest
    | _ => exact .pure _

end

end EvaluationsFollow

/-- Code that does the same follows, at every amount of fuel. -/
theorem evaluationsFollow (fuel : Nat) : EvaluationsFollow fuel := by
  -- a round of the rewritten loop has several units less than the loop, hence all smaller amounts
  induction fuel using Nat.strongRecOn with
  | ind fuel ih =>
    cases fuel with
    | zero => exact .zero
    | succ fuel =>
      have hf (m : Nat) (hm : m ≤ fuel) : EvaluationsFollow m := ih m (by omega)
      have hnow := hf fuel (Nat.le_refl _)
      exact {
        evaluate := fun env e => hnow.evaluate_succ e
        evaluateAll := fun env es => hnow.evaluateAll_succ es
        call := hnow.call_succ
        callFunction := hnow.callFunction_succ
        execute := EvaluationsFollow.execute_succ hf
        executeAll := EvaluationsFollow.executeAll_succ hf }

end Lox.Lexical
