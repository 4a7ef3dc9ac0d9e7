import Mathlib.Logic.Basic
import Lox.Tree

/-! Tokens, trees and diagnostics with other lines. -/
namespace Lox

def Token.relined (φ : Nat → Nat) (t : Token) : Token := { t with line := φ t.line }

def Diagnostic.relined (φ : Nat → Nat) (d : Diagnostic) : Diagnostic := { d with line := φ d.line }

mutual
def Expr.relined (φ : Nat → Nat) : Expr → Expr
  | .literal value line => .literal value (φ line)
  | .group inner line => .group (inner.relined φ) (φ line)
  | .unary op right line => .unary op (right.relined φ) (φ line)
  | .binary left op right line => .binary (left.relined φ) op (right.relined φ) (φ line)
  | .read o line => .read o (φ line)
  | .this o line => .this o (φ line)
  | .assign target value line => .assign target (value.relined φ) (φ line)
  | .get object name line => .get (object.relined φ) name (φ line)
  | .set object name value line => .set (object.relined φ) name (value.relined φ) (φ line)
  | .call callee arguments line =>
    .call (callee.relined φ) (argumentsRelined φ arguments) (φ line)

def argumentsRelined (φ : Nat → Nat) : List Expr → List Expr
  | [] => []
  | e :: rest => e.relined φ :: argumentsRelined φ rest
end

def VarDecl.relined (φ : Nat → Nat) (decl : VarDecl) : VarDecl :=
  ⟨decl.name, decl.initializer.map (Expr.relined φ), φ decl.line⟩

def ForInit.relined (φ : Nat → Nat) : ForInit → ForInit
  | nothing => nothing
  | declare decl => declare (decl.relined φ)
  | evaluate e => evaluate (e.relined φ)

mutual
def Stmt.relined (φ : Nat → Nat) : Stmt → Stmt
  | .expression e line => .expression (e.relined φ) (φ line)
  | .print e line => .print (e.relined φ) (φ line)
  | .var decl => .var (decl.relined φ)
  | .function decl => .function (functionRelined φ decl)
  | .classDecl name methods line => .classDecl name (methodsRelined φ methods) (φ line)
  | .block statements line => .block (statementsRelined φ statements) (φ line)
  | .ifThen condition thenBranch line =>
    .ifThen (condition.relined φ) (thenBranch.relined φ) (φ line)
  | .ifElse condition thenBranch elseBranch line =>
    .ifElse (condition.relined φ) (thenBranch.relined φ) (elseBranch.relined φ) (φ line)
  | .whileLoop condition body line =>
    .whileLoop (condition.relined φ) (body.relined φ) (φ line)
  | .forLoop init condition increment body line =>
    .forLoop (init.relined φ) (condition.map (Expr.relined φ)) (increment.map (Expr.relined φ))
      (body.relined φ) (φ line)
  | .loopExit exit line => .loopExit exit (φ line)
  | .returns value line => .returns (value.map (Expr.relined φ)) (φ line)

def statementsRelined (φ : Nat → Nat) : List Stmt → List Stmt
  | [] => []
  | s :: rest => s.relined φ :: statementsRelined φ rest

def functionRelined (φ : Nat → Nat) : FunDecl Stmt → FunDecl Stmt
  | ⟨name, params, body, line, site⟩ => ⟨name, params, statementsRelined φ body, φ line, site⟩

def methodsRelined (φ : Nat → Nat) : List (FunDecl Stmt) → List (FunDecl Stmt)
  | [] => []
  | d :: rest => functionRelined φ d :: methodsRelined φ rest
end

section
variable (φ ψ : Nat → Nat)

@[simp] theorem Expr.relined_line (e : Expr) : (e.relined φ).line = φ e.line := by
  cases e <;> rfl

@[simp] theorem Stmt.relined_line (s : Stmt) : (s.relined φ).line = φ s.line := by
  rcases s with _ | _ | ⟨_, _, _⟩ | ⟨_, _, _, _, _⟩ | _ | _ | _ | _ | _ | _ | _ | _ <;> rfl

@[simp] theorem functionRelined_name (d : FunDecl Stmt) :
    (functionRelined φ d).name = d.name := by
  cases d
  rfl

@[simp] theorem functionRelined_params (d : FunDecl Stmt) :
    (functionRelined φ d).params = d.params := by
  cases d
  rfl

@[simp] theorem functionRelined_line (d : FunDecl Stmt) :
    (functionRelined φ d).line = φ d.line := by
  cases d
  rfl

theorem argumentsRelined_eq_map (es : List Expr) :
    argumentsRelined φ es = es.map (Expr.relined φ) := by
  induction es with
  | nil => rfl
  | cons e rest ih => rw [argumentsRelined, ih, List.map_cons]

@[simp] theorem argumentsRelined_length (es : List Expr) :
    (argumentsRelined φ es).length = es.length := by
  rw [argumentsRelined_eq_map, List.length_map]

/-! Lines changed twice. -/

mutual
theorem Expr.relined_relined : (e : Expr) → (e.relined φ).relined ψ = e.relined (ψ ∘ φ)
  | .literal _ _ => rfl
  | .group inner _ => congrArg (Expr.group · _) inner.relined_relined
  | .unary op right _ => congrArg (Expr.unary op · _) right.relined_relined
  | .binary left op right _ =>
    congrArg₂ (Expr.binary · op · _) left.relined_relined right.relined_relined
  | .read _ _ => rfl
  | .this _ _ => rfl
  | .assign target value _ => congrArg (Expr.assign target · _) value.relined_relined
  | .get object name _ => congrArg (Expr.get · name _) object.relined_relined
  | .set object name value _ =>
    congrArg₂ (Expr.set · name · _) object.relined_relined value.relined_relined
  | .call callee arguments _ =>
    congrArg₂ (Expr.call · · _) callee.relined_relined (argumentsRelined_relined arguments)

theorem argumentsRelined_relined : (es : List Expr) →
    argumentsRelined ψ (argumentsRelined φ es) = argumentsRelined (ψ ∘ φ) es
  | [] => rfl
  | e :: rest => congrArg₂ List.cons e.relined_relined (argumentsRelined_relined rest)
end

theorem optionalRelined_relined (e? : Option Expr) :
    (e?.map (Expr.relined φ)).map (Expr.relined ψ) = e?.map (Expr.relined (ψ ∘ φ)) := by
  rw [Option.map_map]
  exact congrArg (Option.map · e?) (funext (Expr.relined_relined φ ψ))

theorem VarDecl.relined_relined (decl : VarDecl) :
    (decl.relined φ).relined ψ = decl.relined (ψ ∘ φ) := by
  simp only [VarDecl.relined, optionalRelined_relined, Function.comp]

theorem ForInit.relined_relined (init : ForInit) :
    (init.relined φ).relined ψ = init.relined (ψ ∘ φ) := by
  cases init with
  | nothing => rfl
  | declare decl => exact congrArg ForInit.declare (decl.relined_relined φ ψ)
  | evaluate e => exact congrArg ForInit.evaluate (e.relined_relined φ ψ)

mutual
theorem Stmt.relined_relined : (s : Stmt) → (s.relined φ).relined ψ = s.relined (ψ ∘ φ)
  | .expression e _ => congrArg (Stmt.expression · _) (e.relined_relined φ ψ)
  | .print e _ => congrArg (Stmt.print · _) (e.relined_relined φ ψ)
  | .var decl => congrArg Stmt.var (decl.relined_relined φ ψ)
  | .function decl => congrArg Stmt.function (functionRelined_relined decl)
  | .classDecl name methods _ =>
    congrArg (Stmt.classDecl name · _) (methodsRelined_relined methods)
  | .block statements _ => congrArg (Stmt.block · _) (statementsRelined_relined statements)
  | .ifThen condition thenBranch _ =>
    congrArg₂ (Stmt.ifThen · · _) (condition.relined_relined φ ψ) thenBranch.relined_relined
  | .ifElse condition thenBranch elseBranch line => by
    simp only [Stmt.relined, condition.relined_relined φ ψ, thenBranch.relined_relined,
      elseBranch.relined_relined, Function.comp]
  | .whileLoop condition body _ =>
    congrArg₂ (Stmt.whileLoop · · _) (condition.relined_relined φ ψ) body.relined_relined
  | .forLoop init condition increment body line => by
    simp only [Stmt.relined, init.relined_relined φ ψ, optionalRelined_relined,
      body.relined_relined, Function.comp]
  | .loopExit _ _ => rfl
  | .returns value _ => congrArg (Stmt.returns · _) (optionalRelined_relined φ ψ value)

theorem statementsRelined_relined : (statements : List Stmt) →
    statementsRelined ψ (statementsRelined φ statements) = statementsRelined (ψ ∘ φ) statements
  | [] => rfl
  | s :: rest => congrArg₂ List.cons s.relined_relined (statementsRelined_relined rest)

theorem functionRelined_relined : (d : FunDecl Stmt) →
    functionRelined ψ (functionRelined φ d) = functionRelined (ψ ∘ φ) d
  | ⟨name, params, body, _, site⟩ =>
    congrArg (FunDecl.mk name params · _ site) (statementsRelined_relined body)

theorem methodsRelined_relined : (methods : List (FunDecl Stmt)) →
    methodsRelined ψ (methodsRelined φ methods) = methodsRelined (ψ ∘ φ) methods
  | [] => rfl
  | d :: rest => congrArg₂ List.cons (functionRelined_relined d) (methodsRelined_relined rest)
end

end

/-! Lines left as they are. -/

mutual
theorem Expr.relined_id : (e : Expr) → e.relined id = e
  | .literal _ _ => rfl
  | .group inner _ => congrArg (Expr.group · _) inner.relined_id
  | .unary op right _ => congrArg (Expr.unary op · _) right.relined_id
  | .binary left op right _ => congrArg₂ (Expr.binary · op · _) left.relined_id right.relined_id
  | .read _ _ => rfl
  | .this _ _ => rfl
  | .assign target value _ => congrArg (Expr.assign target · _) value.relined_id
  | .get object name _ => congrArg (Expr.get · name _) object.relined_id
  | .set object name value _ =>
    congrArg₂ (Expr.set · name · _) object.relined_id value.relined_id
  | .call callee arguments _ =>
    congrArg₂ (Expr.call · · _) callee.relined_id (argumentsRelined_id arguments)

theorem argumentsRelined_id : (es : List Expr) → argumentsRelined id es = es
  | [] => rfl
  | e :: rest => congrArg₂ List.cons e.relined_id (argumentsRelined_id rest)
end

theorem optionalRelined_id (e? : Option Expr) : e?.map (Expr.relined id) = e? := by
  cases e? with
  | none => rfl
  | some e => exact congrArg some e.relined_id

theorem VarDecl.relined_id (decl : VarDecl) : decl.relined id = decl := by
  rw [VarDecl.relined, optionalRelined_id, id]

theorem ForInit.relined_id (init : ForInit) : init.relined id = init := by
  cases init with
  | nothing => rfl
  | declare decl => exact congrArg ForInit.declare decl.relined_id
  | evaluate e => exact congrArg ForInit.evaluate e.relined_id

mutual
theorem Stmt.relined_id : (s : Stmt) → s.relined id = s
  | .expression e _ => congrArg (Stmt.expression · _) e.relined_id
  | .print e _ => congrArg (Stmt.print · _) e.relined_id
  | .var decl => congrArg Stmt.var decl.relined_id
  | .function decl => congrArg Stmt.function (functionRelined_id decl)
  | .classDecl name methods _ => congrArg (Stmt.classDecl name · _) (methodsRelined_id methods)
  | .block statements _ => congrArg (Stmt.block · _) (statementsRelined_id statements)
  | .ifThen condition thenBranch _ =>
    congrArg₂ (Stmt.ifThen · · _) condition.relined_id thenBranch.relined_id
  | .ifElse condition thenBranch elseBranch line => by
    simp only [Stmt.relined, condition.relined_id, thenBranch.relined_id, elseBranch.relined_id, id]
  | .whileLoop condition body _ =>
    congrArg₂ (Stmt.whileLoop · · _) condition.relined_id body.relined_id
  | .forLoop init condition increment body line => by
    simp only [Stmt.relined, init.relined_id, optionalRelined_id, body.relined_id, id]
  | .loopExit _ _ => rfl
  | .returns value _ => congrArg (Stmt.returns · _) (optionalRelined_id value)

theorem statementsRelined_id : (statements : List Stmt) →
    statementsRelined id statements = statements
  | [] => rfl
  | s :: rest => congrArg₂ List.cons s.relined_id (statementsRelined_id rest)

theorem functionRelined_id : (d : FunDecl Stmt) → functionRelined id d = d
  | ⟨name, params, body, _, site⟩ =>
    congrArg (FunDecl.mk name params · _ site) (statementsRelined_id body)

theorem methodsRelined_id : (methods : List (FunDecl Stmt)) →
    methodsRelined id methods = methods
  | [] => rfl
  | d :: rest => congrArg₂ List.cons (functionRelined_id d) (methodsRelined_id rest)
end

end Lox
