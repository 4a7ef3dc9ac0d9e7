import Lox.Proofs.Loops.Following

/-! Loops round by round, and what code that does the same has still to do at the end of a round. -/
namespace Lox.Lexical
open Lox.Action

variable {α β : Type}

/-! An increment that is still to come. -/

/-- Runs `turn` in front of the next round of a loop. -/
def goOn (turn : Action Store Unit) (a : α) : Signal → Action Store α
  | .exit .toNext => do
    turn
    pure a
  | _ => pure a

/-- Runs `turn` behind `x` where `x` goes on with the next round. -/
def closing (signal : α → Signal) (turn : Action Store Unit) (x : Action Store α) :
    Action Store α := do
  let a ← x
  goOn turn a (signal a)

section
variable {signal : β → Signal} {turn : Action Store Unit}

theorem closing_bind (x : Action Store α) (f : α → Action Store β) :
    closing signal turn (x >>= f) = x >>= fun a => closing signal turn (f a) :=
  Action.bind_assoc x f _

theorem goOn_idle (b : β) (end? : Signal) : goOn (pure ()) b end? = pure b := by
  cases end? with
  | exit e => cases e <;> rfl
  | _ => rfl

theorem closing_idle (x : Action Store β) : closing signal (pure ()) x = x := by
  funext s
  simp only [closing, goOn_idle, bind_apply]
  cases x s <;> rfl

theorem closing_with (x : Action Store Signal) (env : Env) :
    closing Prod.fst turn (do let end? ← x; pure (end?, env)) =
      (do let end? ← closing id turn x; pure (end?, env)) := by
  simp only [closing, Action.bind_assoc]
  congr 1
  funext end?
  cases end? with
  | exit e =>
    cases e with
    | toEnd => rfl
    | toNext =>
      simp only [goOn, id, Action.bind_assoc]
      rfl
  | _ => rfl

theorem closing_executeAll (fuel : Nat) (env : Env) (s : Stmt) (rest : List Stmt) :
    closing id turn (executeAll (fuel + 1) env (s :: rest)) = (do
      match ← closing Prod.fst turn (execute fuel env s) with
      | (.normal, env) => closing id turn (executeAll fuel env rest)
      | (end?, _) => pure end?) := by
  rw [executeAll, closing_bind]
  conv_rhs => rw [closing, Action.bind_assoc]
  congr 1
  funext r
  rcases r with ⟨end?, env'⟩
  cases end? with
  | exit e =>
    cases e with
    | toEnd => rfl
    | toNext =>
      simp only [goOn, Action.bind_assoc]
      rfl
  | _ => rfl

theorem Gives.of_closing {x : Action Store β} {b : β} (h : Gives (closing signal turn x) b) :
    Gives x b := by
  obtain ⟨b', hb', h⟩ := h.of_bind
  unfold goOn at h
  split at h
  · obtain ⟨_, _, h⟩ := h.of_bind
    rwa [h.of_pure]
  · rwa [h.of_pure]

end

/-- Nothing is still to do where `x` goes on with no next round. -/
theorem Follows.closing {x : Action Store α} {y : Nat → Action Store α} {signal : α → Signal}
    (h : Follows x y) (hx : ∀ a, Gives x a → ∀ e, signal a ≠ .exit e)
    (before : Action Store Unit) (behind : Nat → Action Store Unit) :
    Follows (closing signal before x) fun n => closing signal (behind n) (y n) := by
  apply h.bind
  intro a ha
  have hne := hx a ha
  cases hs : signal a with
  | exit e => exact absurd hs (hne e)
  | normal | returned => exact .pure a

/-- What the two sides of a mode have still to do where they go on with the next round: `before` on
the one side and, with any fuel, `behind` on the other. -/
inductive Turns : Mode → Env → Action Store Unit → (Nat → Action Store Unit) → Prop
  | plain {env : Env} : Turns .plain env (pure ()) fun _ => pure ()
  | left {env : Env} {increment : Option Expr} (k : Nat) :
    Turns (.left increment) env (pure ()) fun fuel => step (fuel + k) env increment
  | right {env : Env} {increment : Option Expr} {fuel : Nat} :
    Follows (step fuel env increment) (fun fuel => step fuel env increment) →
      Turns (.right increment) env (step fuel env increment) fun _ => pure ()

namespace Turns

variable {mode : Mode} {env env' : Env} {before : Action Store Unit}
  {behind : Nat → Action Store Unit}

theorem shift (h : Turns mode env before behind) :
    Turns mode env before fun fuel => behind (fuel + 1) := by
  cases h with
  | plain => exact .plain
  | left k =>
    simp only [Nat.add_assoc, Nat.add_comm 1 k]
    exact .left (k + 1)
  | right h => exact .right h

/-- Other names are of no account. -/
theorem moved (h : Turns mode env before behind)
    (hn : ∀ name, ¬ mode.Spares name → env'.find? name = env.find? name) :
    Turns mode env' before behind := by
  cases h with
  | plain => exact .plain
  | @left _ increment k =>
    have hstep (fuel : Nat) : step fuel env' increment = step fuel env increment :=
      step_congr fuel increment fun name h => hn name (not_not_intro h)
    simp only [← hstep]
    exact .left k
  | @right _ increment fuel h =>
    have hstep (fuel : Nat) : step fuel env' increment = step fuel env increment :=
      step_congr fuel increment fun name h => hn name (not_not_intro h)
    simp only [← hstep] at h ⊢
    exact .right h

theorem enter (h : Turns mode env before behind) : Turns mode env.enter before behind :=
  h.moved fun name _ => env.find?_enter name

end Turns

/-! Rounds of loops. -/

/-- One round behind the condition: the body, and the increment if there is a next round. -/
def round (fuel : Nat) (env : Env) (increment : Option Expr) (body : Stmt) :
    Action Store Signal := do
  let r ← execute fuel env body
  match r.1 with
  | .exit .toEnd => pure (.exit .toEnd)
  | .returned v => pure (.returned v)
  | signal => do
    step fuel env increment
    pure signal

theorem loop_succ (fuel : Nat) (env : Env) (condition increment : Option Expr) (body : Stmt) :
    loop (fuel + 1) env condition increment body = (do
      if ← holds fuel env condition then
        match ← round fuel env increment body with
        | .exit .toEnd => pure .normal
        | .returned v => pure (.returned v)
        | _ => loop fuel env condition increment body
      else pure .normal) := by
  simp only [loop, round, Action.bind_assoc]
  congr 1
  funext b
  split
  · congr 1
    funext r
    rcases r with ⟨signal, env'⟩
    cases signal with
    | exit e =>
      cases e with
      | toEnd => rfl
      | toNext =>
        simp only [Action.bind_assoc]
        rfl
    | returned v => rfl
    | normal =>
      simp only [Action.bind_assoc]
      rfl
  · rfl

/-- What leaves a loop is no way out of a loop. -/
theorem Gives.of_loop {fuel : Nat} {env : Env} {condition increment : Option Expr} {body : Stmt}
    {signal : Signal} (h : Gives (loop fuel env condition increment body) signal)
    (e : LoopExit) : signal ≠ .exit e := by
  induction fuel with
  | zero =>
    rcases h with ⟨s, t, h⟩
    cases h
  | succ fuel ih =>
    rw [loop_succ] at h
    obtain ⟨b, -, h⟩ := h.of_bind
    split at h
    · obtain ⟨r, -, h⟩ := h.of_bind
      split at h
      · rw [h.of_pure]
        exact Signal.noConfusion
      · rw [h.of_pure]
        exact Signal.noConfusion
      · exact ih h
    · rw [h.of_pure]
      exact Signal.noConfusion

/-- Loops whose conditions and rounds follow each other. -/
theorem follows_loop {fuel : Nat} {env env' : Env}
    {condition condition' increment increment' : Option Expr} {body body' : Stmt}
    (hc : ∀ m ≤ fuel, Follows (holds m env condition) fun n => holds n env' condition')
    (hr : ∀ m ≤ fuel, Follows (round m env increment body) fun n => round n env' increment' body') :
    Follows (loop fuel env condition increment body)
      fun n => loop n env' condition' increment' body' := by
  induction fuel with
  | zero => exact .fuelSpent
  | succ fuel ih =>
    have hrest := ih (fun m hm => hc m (by omega)) fun m hm => hr m (by omega)
    apply Follows.of_add 1
    simp only [loop_succ]
    apply (hc fuel (by omega)).bind
    intro b _
    split
    · apply (hr fuel (by omega)).bind
      intro signal _
      cases signal with
      | exit e =>
        cases e with
        | toEnd => exact .pure _
        | toNext => exact hrest
      | returned v => exact .pure _
      | normal => exact hrest
    · exact .pure _

/-! Names behind a statement. -/

theorem Gives.of_declare {env env' : Env} {name : String} {v : Value}
    (h : Gives (declare env name v) env') : ∃ cell, env' = env.extend name cell := by
  rcases h with ⟨s, t, h⟩
  cases env with
  | top =>
    cases h
    exact ⟨0, rfl⟩
  | inside cells =>
    cases h
    exact ⟨_, rfl⟩

theorem Gives.of_declareFunction {env env' : Env} {decl : FunDecl Stmt}
    (h : Gives (declareFunction env decl) env') : ∃ cell, env' = env.extend decl.name cell := by
  rcases h with ⟨s, t, h⟩
  exact Gives.of_declare ⟨_, t, h⟩

theorem Gives.of_declareVar {fuel : Nat} {env env' : Env} {decl : VarDecl}
    (h : Gives (declareVar fuel env decl) env') : ∃ cell, env' = env.extend decl.name cell := by
  rcases decl with ⟨name, initializer, line⟩
  cases fuel with
  | zero =>
    rcases h with ⟨s, t, h⟩
    cases h
  | succ fuel =>
    cases initializer with
    | none => exact h.of_declare
    | some e =>
      obtain ⟨v, -, h⟩ := h.of_bind
      exact h.of_declare

theorem Gives.of_forLoop {fuel : Nat} {env : Env} {init : ForInit}
    {condition increment : Option Expr} {body : Stmt} {line : Nat} {r : Signal × Env}
    (h : Gives (execute (fuel + 1) env (.forLoop init condition increment body line)) r) :
    r.2 = env ∧ ∀ e, r.1 ≠ .exit e := by
  have hend {inner : Env} (h : Gives (do
      let signal ← loop fuel inner condition increment body
      pure (signal, env)) r) : r.2 = env ∧ ∀ e, r.1 ≠ .exit e := by
    obtain ⟨signal, hl, h⟩ := h.of_bind
    rw [h.of_pure]
    exact ⟨rfl, hl.of_loop⟩
  cases init with
  | nothing => exact hend h
  | declare | evaluate =>
    obtain ⟨_, -, h⟩ := h.of_bind
    exact hend h

/-- A statement leaves the names of the increment around it alone. -/
theorem find?_of_execute {mode : Mode} {env : Env} {fuel : Nat} {s s' : Stmt}
    (hs : Stmt.Alike mode s s') {r : Signal × Env} (h : Gives (execute fuel env s) r)
    {name : String} (hn : ¬ mode.Spares name) : r.2.find? name = env.find? name := by
  induction fuel generalizing s s' r with
  | zero =>
    rcases h with ⟨t, t', h⟩
    cases h
  | succ fuel ih =>
    have hextend {env' : Env} {other : String} (ho : mode.Spares other)
        (he : ∃ cell, env' = env.extend other cell) : env'.find? name = env.find? name := by
      obtain ⟨cell, rfl⟩ := he
      refine env.find?_extend_ne ?_ cell
      rintro rfl
      exact hn ho
    cases hs with
    | expression | block | continueLeft | whileLoop | loopLeft =>
      obtain ⟨_, -, h⟩ := h.of_bind
      rw [h.of_pure]
    | print =>
      obtain ⟨_, -, h⟩ := h.of_bind
      obtain ⟨_, -, h⟩ := h.of_bind
      obtain ⟨_, -, h⟩ := h.of_bind
      rw [h.of_pure]
    | var _ ho =>
      obtain ⟨env', he, h⟩ := h.of_bind
      rw [h.of_pure]
      exact hextend ho he.of_declareVar
    | function _ ho =>
      obtain ⟨env', he, h⟩ := h.of_bind
      rw [h.of_pure]
      exact hextend ho he.of_declareFunction
    | classDecl _ ho =>
      obtain ⟨env', he, h⟩ := h.of_bind
      obtain ⟨_, -, h⟩ := h.of_bind
      obtain ⟨_, -, h⟩ := h.of_bind
      obtain ⟨_, -, h⟩ := h.of_bind
      rw [h.of_pure]
      exact hextend ho he.of_declare
    | ifThen _ ht =>
      obtain ⟨v, -, h⟩ := h.of_bind
      split at h
      · exact ih ht h
      · rw [h.of_pure]
    | ifElse _ ht he =>
      obtain ⟨v, -, h⟩ := h.of_bind
      split at h
      · exact ih ht h
      · exact ih he h
    | loopExit | continueRight => rw [h.of_pure]
    | @returns _ value =>
      cases value with
      | none => rw [h.of_pure]
      | some e =>
        obtain ⟨_, -, h⟩ := h.of_bind
        rw [h.of_pure]
    | forLoop | loopRight => rw [h.of_forLoop.1]

/-! An increment as a statement. -/

section
variable {env : Env} {increment : Option Expr} {line : Nat} {rest : List Stmt}

theorem executeAll_expression (n : Nat) (env : Env) (e : Expr) (line : Nat) (rest : List Stmt) :
    executeAll (n + 2) env (.expression e line :: rest) = (do
      step (n + 1) env (some e)
      executeAll (n + 1) env rest) := by
  simp only [executeAll, execute, step, Action.bind_assoc]
  rfl

/-- The increment in front of the statements on the right. -/
theorem Follows.turn {x : Action Store Signal}
    (h : Follows x fun n => do
      step n env increment
      executeAll n env rest) :
    Follows x fun n => executeAll n env (turnStatements line increment ++ rest) := by
  cases increment with
  | none => exact .of_add 1 (h.later 1)
  | some e =>
    apply Follows.of_add 2
    have hturn := h.later 1
    simp only [← executeAll_expression _ env e line rest] at hturn
    exact hturn

/-- The increment in front of the statements on the left. -/
theorem follows_turn {fuel : Nat} {y : Nat → Action Store Signal}
    (h : ∀ m ≤ fuel, Follows (do
      step m env increment
      executeAll m env rest) y) :
    Follows (executeAll fuel env (turnStatements line increment ++ rest)) y := by
  cases increment with
  | none =>
    cases fuel with
    | zero => exact .of_spent fun _ => rfl
    | succ m => exact h (m + 1) (Nat.le_refl _)
  | some e =>
    rcases fuel with _ | _ | m
    · exact .of_spent fun _ => rfl
    · exact .of_spent fun _ => rfl
    · have hturn := h (m + 1) (by omega)
      rw [← executeAll_expression m env e line rest] at hturn
      exact hturn

end

/-- A `continue` that has the increment in front of it on the right. -/
theorem execute_continue_right {fuel : Nat} {env : Env} {before : Action Store Unit}
    {behind : Nat → Action Store Unit} {increment : Option Expr} {line line' : Nat}
    (ht : Turns (.right increment) env before behind) :
    Follows (closing Prod.fst before (execute (fuel + 1) env (.loopExit .toNext line)))
      fun n => closing Prod.fst (behind n) (execute n env
        (.block (turnStatements line' increment ++ [.loopExit .toNext line]) line)) := by
  cases ht with
  | @right _ _ m hstep =>
    have hend : Follows (pure (.exit .toNext)) fun n =>
        executeAll n env.enter [.loopExit .toNext line] := .of_add 2 (.pure _)
    have hturn : Follows (do step m env increment; pure (.exit .toNext)) fun n =>
        executeAll n env.enter
          (turnStatements line' increment ++ [.loopExit .toNext line]) := by
      apply Follows.turn
      simp only [step_enter]
      exact hstep.bind fun _ _ => hend
    simp only [closing_idle]
    apply Follows.of_add 1
    have hblock := hturn.bind fun signal _ => .pure (signal, env)
    simp only [Action.bind_assoc] at hblock
    exact hblock

/-! The bodies of rounds. -/

section
variable {fuel : Nat} {env : Env} {increment : Option Expr} {body : Stmt}

theorem round_enter (hd : body.DeclaresNothing) :
    round fuel env increment body = round fuel env.enter increment body := by
  simp only [round, step_enter, execute_enter env fuel body hd, restoring, Action.bind_assoc]
  rfl

theorem round_eq_closing : round fuel env increment body = (do
    let r ← closing Prod.fst (step fuel env increment) (execute fuel env body)
    match r.1 with
    | .normal => do
      step fuel env increment
      pure .normal
    | signal => pure signal) := by
  simp only [round, closing, Action.bind_assoc]
  congr 1
  funext r
  rcases r with ⟨signal, env'⟩
  cases signal with
  | exit e =>
    cases e with
    | toEnd => rfl
    | toNext =>
      simp only [goOn, Action.bind_assoc]
      rfl
  | _ => rfl

theorem round_block (statements : List Stmt) (line : Nat) :
    round (fuel + 1) env none (.block statements line) = executeAll fuel env.enter statements := by
  funext s
  simp only [round, execute, bind_apply]
  cases executeAll fuel env.enter statements s with
  | done signal t => cases signal with
    | exit e => cases e <;> rfl
    | _ => rfl
  | _ => rfl

theorem executeAll_body (hd : body.DeclaresNothing) (turn : List Stmt) :
    executeAll (fuel + 1) env.enter (body :: turn) = (do
      let r ← execute fuel env.enter body
      match r.1 with
      | .normal => executeAll fuel env.enter turn
      | signal => pure signal) := by
  have hbody := execute_enter env.enter fuel body hd
  rw [Env.enter_enter] at hbody
  rw [executeAll]
  conv_lhs => rw [hbody, restoring, Action.bind_assoc]
  congr 1
  funext r
  rcases r with ⟨signal, env'⟩
  cases signal <;> rfl

end

/-! A loop as the last statement. -/

section
variable (n : Nat) (env : Env)

theorem executeAll_whileLoop (condition : Expr) (body : Stmt) (line : Nat) :
    executeAll (n + 2) env [.whileLoop condition body line] =
      loop n env (some condition) none body := by
  funext s
  simp only [executeAll, execute, bind_apply]
  cases loop n env (some condition) none body s with
  | done signal t => cases signal <;> rfl
  | _ => rfl

theorem executeAll_var (decl : VarDecl) (rest : List Stmt) :
    executeAll (n + 2) env (.var decl :: rest) = (do
      let inner ← declareVar n env decl
      executeAll (n + 1) inner rest) := by
  simp only [executeAll, execute, Action.bind_assoc]
  rfl

end

end Lox.Lexical
