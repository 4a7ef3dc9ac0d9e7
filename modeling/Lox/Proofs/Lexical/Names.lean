import Lox.Proofs.Lexical.Actions
import Lox.Proofs.Lexical.Evaluation
import Lox.Proofs.Loops.Rewriting

/-! What lexical scoping takes no notice of: depths of occurrences, names that an expression lacks,
and a scope that nothing is declared in. -/
namespace Lox

mutual
/-- The expression with no depth found yet. -/
def Expr.unplaced : Expr → Expr
  | .literal value line => .literal value line
  | .group inner line => .group inner.unplaced line
  | .unary op right line => .unary op right.unplaced line
  | .binary left op right line => .binary left.unplaced op right.unplaced line
  | .read o line => .read ⟨o.name, .global⟩ line
  | .this o line => .this ⟨o.name, .global⟩ line
  | .assign target value line => .assign ⟨target.name, .global⟩ value.unplaced line
  | .get object name line => .get object.unplaced name line
  | .set object name value line => .set object.unplaced name value.unplaced line
  | .call callee arguments line => .call callee.unplaced (argumentsUnplaced arguments) line

def argumentsUnplaced : List Expr → List Expr
  | [] => []
  | e :: rest => e.unplaced :: argumentsUnplaced rest
end

def VarDecl.unplaced (decl : VarDecl) : VarDecl :=
  { decl with initializer := decl.initializer.map Expr.unplaced }

def ForInit.unplaced : ForInit → ForInit
  | nothing => nothing
  | declare decl => declare decl.unplaced
  | evaluate e => evaluate e.unplaced

@[simp] theorem argumentsUnplaced_length (es : List Expr) :
    (argumentsUnplaced es).length = es.length := by
  induction es with
  | nil => rfl
  | cons e rest ih => simp [argumentsUnplaced, ih]

namespace Lexical
open Lox.Action

mutual
theorem evaluate_unplaced (env : Env) : (fuel : Nat) → (e : Expr) →
    evaluate fuel env e.unplaced = evaluate fuel env e
  | 0, _ => rfl
  | _ + 1, .literal _ _ | _ + 1, .read _ _ | _ + 1, .this _ _ => rfl
  | fuel + 1, .group inner _ => evaluate_unplaced env fuel inner
  | fuel + 1, .unary _ right _ => by
    simp only [Expr.unplaced, evaluate, evaluate_unplaced env fuel right]
  | fuel + 1, .binary left _ right _ => by
    simp only [Expr.unplaced, evaluate, evaluate_unplaced env fuel left,
      evaluate_unplaced env fuel right]
  | fuel + 1, .assign _ value _ => by
    simp only [Expr.unplaced, evaluate, evaluate_unplaced env fuel value]
  | fuel + 1, .get object _ _ => by
    simp only [Expr.unplaced, evaluate, evaluate_unplaced env fuel object]
  | fuel + 1, .set object _ value _ => by
    simp only [Expr.unplaced, evaluate, evaluate_unplaced env fuel object,
      evaluate_unplaced env fuel value]
  | fuel + 1, .call callee arguments _ => by
    simp only [Expr.unplaced, evaluate, evaluate_unplaced env fuel callee,
      evaluateAll_unplaced env fuel arguments, argumentsUnplaced_length]

theorem evaluateAll_unplaced (env : Env) : (fuel : Nat) → (es : List Expr) →
    evaluateAll fuel env (argumentsUnplaced es) = evaluateAll fuel env es
  | 0, _ => rfl
  | _ + 1, [] => rfl
  | fuel + 1, e :: rest => by
    simp only [argumentsUnplaced, evaluateAll, evaluate_unplaced env fuel e,
      evaluateAll_unplaced env fuel rest]
end

section
variable (n : Nat) (env : Env)

theorem step_unplaced (e? : Option Expr) :
    step n env (e?.map Expr.unplaced) = step n env e? := by
  cases n with
  | zero => rfl
  | succ n =>
    cases e? with
    | none => rfl
    | some e => simp only [Option.map_some, step, evaluate_unplaced]

theorem holds_unplaced (e? : Option Expr) :
    holds n env (e?.map Expr.unplaced) = holds n env e? := by
  cases n with
  | zero => rfl
  | succ n =>
    cases e? with
    | none => rfl
    | some e => simp only [Option.map_some, holds, evaluate_unplaced]

theorem declareVar_unplaced (decl : VarDecl) :
    declareVar n env decl.unplaced = declareVar n env decl := by
  rcases decl with ⟨name, initializer, line⟩
  cases n with
  | zero => rfl
  | succ n =>
    cases initializer with
    | none => rfl
    | some e => simp only [VarDecl.unplaced, Option.map_some, declareVar, evaluate_unplaced]

theorem execute_returns_unplaced (value : Option Expr) (line : Nat) :
    execute n env (.returns (value.map Expr.unplaced) line) =
      execute n env (.returns value line) := by
  cases n with
  | zero => rfl
  | succ n =>
    cases value with
    | none => rfl
    | some e => simp only [Option.map_some, execute, evaluate_unplaced]

end

section
variable {env env' : Env}

mutual
/-- Only the names in an expression are looked up. -/
theorem evaluate_congr : (fuel : Nat) → (e : Expr) →
    (∀ name ∈ e.names, env.find? name = env'.find? name) →
      evaluate fuel env e = evaluate fuel env' e
  | 0, _, _ => rfl
  | _ + 1, .literal _ _, _ => rfl
  | _ + 1, .read o line, h | _ + 1, .this o line, h => by
    have ho : env.find? o.name = env'.find? o.name := h _ (List.mem_singleton_self _)
    funext s
    simp only [evaluate, read, ho]
  | fuel + 1, .group inner _, h => evaluate_congr fuel inner h
  | fuel + 1, .unary _ right _, h => by
    simp only [evaluate, evaluate_congr fuel right h]
  | fuel + 1, .binary left _ right _, h => by
    simp only [evaluate, evaluate_congr fuel left (fun n hn => h n (List.mem_append_left _ hn)),
      evaluate_congr fuel right (fun n hn => h n (List.mem_append_right _ hn))]
  | fuel + 1, .assign target value line, h => by
    have ho : env.find? target.name = env'.find? target.name := h _ List.mem_cons_self
    have hw (v : Value) : write env target.name v line = write env' target.name v line := by
      funext s
      simp only [write, ho]
    simp only [evaluate, evaluate_congr fuel value (fun n hn => h n (List.mem_cons_of_mem _ hn)),
      hw]
  | fuel + 1, .get object _ _, h => by
    simp only [evaluate, evaluate_congr fuel object h]
  | fuel + 1, .set object _ value _, h => by
    simp only [evaluate,
      evaluate_congr fuel object (fun n hn => h n (List.mem_append_left _ hn)),
      evaluate_congr fuel value (fun n hn => h n (List.mem_append_right _ hn))]
  | fuel + 1, .call callee arguments _, h => by
    simp only [evaluate,
      evaluate_congr fuel callee (fun n hn => h n (List.mem_append_left _ hn)),
      evaluateAll_congr fuel arguments (fun n hn => h n (List.mem_append_right _ hn))]

theorem evaluateAll_congr : (fuel : Nat) → (es : List Expr) →
    (∀ name ∈ argumentNames es, env.find? name = env'.find? name) →
      evaluateAll fuel env es = evaluateAll fuel env' es
  | 0, _, _ => rfl
  | _ + 1, [], _ => rfl
  | fuel + 1, e :: rest, h => by
    simp only [evaluateAll, evaluate_congr fuel e (fun n hn => h n (List.mem_append_left _ hn)),
      evaluateAll_congr fuel rest (fun n hn => h n (List.mem_append_right _ hn))]
end

theorem step_congr (fuel : Nat) (e? : Option Expr)
    (h : ∀ name ∈ optionalNames e?, env.find? name = env'.find? name) :
    step fuel env e? = step fuel env' e? := by
  cases fuel with
  | zero => rfl
  | succ fuel =>
    cases e? with
    | none => rfl
    | some e => simp only [step, evaluate_congr fuel e h]

end

/-! A scope more. -/

theorem evaluate_enter (fuel : Nat) (env : Env) (e : Expr) :
    evaluate fuel env.enter e = evaluate fuel env e :=
  evaluate_congr fuel e fun name _ => env.find?_enter name

theorem holds_enter (fuel : Nat) (env : Env) (e? : Option Expr) :
    holds fuel env.enter e? = holds fuel env e? := by
  cases fuel with
  | zero => rfl
  | succ fuel =>
    cases e? with
    | none => rfl
    | some e => simp only [holds, evaluate_enter]

theorem holds_of_enter {env env' : Env} (h : env'.enter = env.enter) (fuel : Nat)
    (e? : Option Expr) : holds fuel env' e? = holds fuel env e? := by
  rw [← holds_enter fuel env', h, holds_enter]

theorem step_enter (fuel : Nat) (env : Env) (e? : Option Expr) :
    step fuel env.enter e? = step fuel env e? :=
  step_congr fuel e? fun name _ => env.find?_enter name

@[simp] theorem Env.enter_enter (env : Env) : env.enter.enter = env.enter := by
  cases env <;> rfl

/-- The same with the names from before. -/
def restoring (env : Env) (x : Action Store (Signal × Env)) : Action Store (Signal × Env) := do
  let r ← x
  pure (r.1, env)

mutual
/-- A statement that declares nothing may as well stand in a scope of its own. -/
theorem execute_enter (env : Env) : (fuel : Nat) → (s : Stmt) → s.DeclaresNothing →
    execute fuel env s = restoring env (execute fuel env.enter s)
  | 0, _, _ => rfl
  | fuel + 1, .expression e _, _ => by
    simp only [execute, evaluate_enter, restoring, Action.bind_assoc]
    rfl
  | fuel + 1, .print e _, _ => by
    simp only [execute, evaluate_enter, restoring, Action.bind_assoc]
    rfl
  | fuel + 1, .block statements _, _ => by
    simp only [execute, restoring, Action.bind_assoc, Env.enter_enter]
    rfl
  | fuel + 1, .ifThen condition thenBranch _, hd => by
    have ht := execute_enter env fuel thenBranch hd
    simp only [execute, evaluate_enter, restoring, Action.bind_assoc] at ht ⊢
    congr 1
    funext v
    split
    · exact ht
    · rfl
  | fuel + 1, .ifElse condition thenBranch elseBranch _, hd => by
    have ht := execute_enter env fuel thenBranch hd.1
    have he := execute_enter env fuel elseBranch hd.2
    simp only [execute, evaluate_enter, restoring, Action.bind_assoc] at ht he ⊢
    congr 1
    funext v
    split
    · exact ht
    · exact he
  | fuel + 1, .whileLoop condition body _, hd => by
    simp only [execute, restoring, Action.bind_assoc, loop_enter env fuel _ _ body hd]
    rfl
  | fuel + 1, .forLoop .nothing condition increment body _, hd => by
    simp only [execute, restoring, Action.bind_assoc, loop_enter env fuel _ _ body hd]
    rfl
  | fuel + 1, .forLoop (.evaluate e) condition increment body _, hd => by
    simp only [execute, restoring, Action.bind_assoc, evaluate_enter,
      loop_enter env fuel _ _ body hd]
    rfl
  | fuel + 1, .forLoop (.declare decl) condition increment body _, hd => by
    simp only [execute, restoring, Action.bind_assoc, Env.enter_enter]
    rfl
  | _ + 1, .loopExit _ _, _ => rfl
  | _ + 1, .returns none _, _ => rfl
  | fuel + 1, .returns (some e) _, _ => by
    simp only [execute, evaluate_enter, restoring, Action.bind_assoc]
    rfl

theorem loop_enter (env : Env) : (fuel : Nat) → (condition increment : Option Expr) →
    (body : Stmt) → body.DeclaresNothing →
      loop fuel env condition increment body = loop fuel env.enter condition increment body
  | 0, _, _, _, _ => rfl
  | fuel + 1, condition, increment, body, hd => by
    simp only [loop, holds_enter, step_enter, loop_enter env fuel condition increment body hd,
      execute_enter env fuel body hd, restoring, Action.bind_assoc]
    congr 1
    funext b
    split
    · congr 1
      funext r
      rcases r with ⟨signal, env'⟩
      cases signal with
      | exit e => cases e <;> rfl
      | _ => rfl
    · rfl
end

end Lexical
end Lox
