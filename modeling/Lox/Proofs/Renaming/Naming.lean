import Lox.Proofs.Renaming.Rename

/-! Code that is equal but for the names of local variables. -/
namespace Lox

open Grammar (Context)

/-- Which names of one program mean which names of another at some place. -/
abbrev Naming := String → String → Prop

/-- The names that a local variable may have on the two sides: twice the same, or `x` and `y`. -/
inductive Naming.Binds (x y : String) : String → String → Prop
  | kept (a : String) : Binds x y a a
  | renamed : x ≠ "this" → Binds x y x y

/-- The naming behind a declaration, which hides what its names meant before. -/
def Naming.declare (R : Naming) (a b : String) : Naming := fun n n' =>
  (n = a ∧ n' = b) ∨ (n ≠ a ∧ n' ≠ b ∧ R n n')

def Occurrence.Renamed (R : Naming) (o o' : Occurrence) : Prop :=
  R o.name o'.name ∧ o'.depth = o.depth

mutual
/-- Every occurrence means the same on both sides, and has the same depth. -/
inductive Expr.Renamed (R : Naming) : Expr → Expr → Prop
  | literal {value : Literal} {line : Nat} :
    Expr.Renamed R (.literal value line) (.literal value line)
  | group {inner inner' : Expr} {line : Nat} : Expr.Renamed R inner inner' →
    Expr.Renamed R (.group inner line) (.group inner' line)
  | unary {op : UnaryOp} {right right' : Expr} {line : Nat} : Expr.Renamed R right right' →
    Expr.Renamed R (.unary op right line) (.unary op right' line)
  | binary {left left' : Expr} {op : BinaryOp} {right right' : Expr} {line : Nat} :
    Expr.Renamed R left left' → Expr.Renamed R right right' →
      Expr.Renamed R (.binary left op right line) (.binary left' op right' line)
  | read {o o' : Occurrence} {line : Nat} : o.Renamed R o' →
    Expr.Renamed R (.read o line) (.read o' line)
  | this {o o' : Occurrence} {line : Nat} : o.Renamed R o' →
    Expr.Renamed R (.this o line) (.this o' line)
  | assign {target target' : Occurrence} {value value' : Expr} {line : Nat} :
    target.Renamed R target' → Expr.Renamed R value value' →
      Expr.Renamed R (.assign target value line) (.assign target' value' line)
  | get {object object' : Expr} {name : String} {line : Nat} : Expr.Renamed R object object' →
    Expr.Renamed R (.get object name line) (.get object' name line)
  | set {object object' : Expr} {name : String} {value value' : Expr} {line : Nat} :
    Expr.Renamed R object object' → Expr.Renamed R value value' →
      Expr.Renamed R (.set object name value line) (.set object' name value' line)
  | call {callee callee' : Expr} {arguments arguments' : List Expr} {line : Nat} :
    Expr.Renamed R callee callee' → ArgumentsRenamed R arguments arguments' →
      Expr.Renamed R (.call callee arguments line) (.call callee' arguments' line)

inductive ArgumentsRenamed (R : Naming) : List Expr → List Expr → Prop
  | nil : ArgumentsRenamed R [] []
  | cons {e e' : Expr} {rest rest' : List Expr} : Expr.Renamed R e e' →
    ArgumentsRenamed R rest rest' → ArgumentsRenamed R (e :: rest) (e' :: rest')
end

abbrev OptionalRenamed (R : Naming) : Option Expr → Option Expr → Prop :=
  Option.Rel (Expr.Renamed R)

/-- Beside the two declarations, what names mean before and behind them. -/
inductive VarDecl.Renamed (x y : String) (R : Naming) : VarDecl → VarDecl → Naming → Prop
  | mk {a b : String} {initializer initializer' : Option Expr} {line : Nat} :
    Naming.Binds x y a b → OptionalRenamed R initializer initializer' →
      Renamed x y R ⟨a, initializer, line⟩ ⟨b, initializer', line⟩ (R.declare a b)

inductive ForInit.Renamed (x y : String) (R : Naming) : ForInit → ForInit → Naming → Prop
  | nothing : Renamed x y R .nothing .nothing R
  | declare {decl decl' : VarDecl} {R' : Naming} : decl.Renamed x y R decl' R' →
    Renamed x y R (.declare decl) (.declare decl') R'
  | evaluate {e e' : Expr} : e.Renamed R e' → Renamed x y R (.evaluate e) (.evaluate e') R

inductive ParamsRenamed (x y : String) : Naming → List String → List String → Naming → Prop
  | nil {R : Naming} : ParamsRenamed x y R [] [] R
  | cons {R R' : Naming} {a b : String} {rest rest' : List String} : Naming.Binds x y a b →
    ParamsRenamed x y (R.declare a b) rest rest' R' →
      ParamsRenamed x y R (a :: rest) (b :: rest') R'

mutual
/-- Local variables `x` may be called `y` in the second statement. Beside the two statements, what
names mean before and behind them. -/
inductive Stmt.Renamed (x y : String) : Naming → Stmt → Stmt → Naming → Prop
  | expression {R : Naming} {e e' : Expr} {line : Nat} : e.Renamed R e' →
    Stmt.Renamed x y R (.expression e line) (.expression e' line) R
  | print {R : Naming} {e e' : Expr} {line : Nat} : e.Renamed R e' →
    Stmt.Renamed x y R (.print e line) (.print e' line) R
  | var {R R' : Naming} {decl decl' : VarDecl} : decl.Renamed x y R decl' R' →
    Stmt.Renamed x y R (.var decl) (.var decl') R'
  | function {R : Naming} {decl decl' : FunDecl Stmt} :
    FunctionRenamed x y (R.declare decl.name decl.name) decl decl' →
      Stmt.Renamed x y R (.function decl) (.function decl') (R.declare decl.name decl.name)
  | classDecl {R : Naming} {name : String} {methods methods' : List (FunDecl Stmt)} {line : Nat} :
    MethodsRenamed x y (R.declare name name) methods methods' →
      Stmt.Renamed x y R (.classDecl name methods line) (.classDecl name methods' line)
        (R.declare name name)
  | block {R : Naming} {statements statements' : List Stmt} {line : Nat} :
    StatementsRenamed x y R statements statements' →
      Stmt.Renamed x y R (.block statements line) (.block statements' line) R
  | ifThen {R : Naming} {condition condition' : Expr} {thenBranch thenBranch' : Stmt}
    {line : Nat} : condition.Renamed R condition' →
      Stmt.Renamed x y R thenBranch thenBranch' R →
        Stmt.Renamed x y R (.ifThen condition thenBranch line)
          (.ifThen condition' thenBranch' line) R
  | ifElse {R : Naming} {condition condition' : Expr}
    {thenBranch thenBranch' elseBranch elseBranch' : Stmt} {line : Nat} :
    condition.Renamed R condition' → Stmt.Renamed x y R thenBranch thenBranch' R →
      Stmt.Renamed x y R elseBranch elseBranch' R →
        Stmt.Renamed x y R (.ifElse condition thenBranch elseBranch line)
          (.ifElse condition' thenBranch' elseBranch' line) R
  | whileLoop {R : Naming} {condition condition' : Expr} {body body' : Stmt} {line : Nat} :
    condition.Renamed R condition' → Stmt.Renamed x y R body body' R →
      Stmt.Renamed x y R (.whileLoop condition body line) (.whileLoop condition' body' line) R
  | forLoop {R R' : Naming} {init init' : ForInit}
    {condition condition' increment increment' : Option Expr} {body body' : Stmt} {line : Nat} :
    init.Renamed x y R init' R' → OptionalRenamed R' condition condition' →
      OptionalRenamed R' increment increment' → Stmt.Renamed x y R' body body' R' →
        Stmt.Renamed x y R (.forLoop init condition increment body line)
          (.forLoop init' condition' increment' body' line) R
  | loopExit {R : Naming} {exit : LoopExit} {line : Nat} :
    Stmt.Renamed x y R (.loopExit exit line) (.loopExit exit line) R
  | returns {R : Naming} {value value' : Option Expr} {line : Nat} :
    OptionalRenamed R value value' →
      Stmt.Renamed x y R (.returns value line) (.returns value' line) R

inductive StatementsRenamed (x y : String) : Naming → List Stmt → List Stmt → Prop
  | nil {R : Naming} : StatementsRenamed x y R [] []
  | cons {R R' : Naming} {s s' : Stmt} {rest rest' : List Stmt} : Stmt.Renamed x y R s s' R' →
    StatementsRenamed x y R' rest rest' → StatementsRenamed x y R (s :: rest) (s' :: rest')

/-- A function keeps its own name. -/
inductive FunctionRenamed (x y : String) : Naming → FunDecl Stmt → FunDecl Stmt → Prop
  | mk {R R' : Naming} {name : String} {params params' : List String} {body body' : List Stmt}
    {line site : Nat} : ParamsRenamed x y R params params' R' →
      StatementsRenamed x y R' body body' →
        FunctionRenamed x y R ⟨name, params, body, line, site⟩ ⟨name, params', body', line, site⟩

inductive MethodsRenamed (x y : String) : Naming → List (FunDecl Stmt) → List (FunDecl Stmt) → Prop
  | nil {R : Naming} : MethodsRenamed x y R [] []
  | cons {R : Naming} {d d' : FunDecl Stmt} {rest rest' : List (FunDecl Stmt)} :
    FunctionRenamed x y R d d' → MethodsRenamed x y R rest rest' →
      MethodsRenamed x y R (d :: rest) (d' :: rest')
end

/-- At top level every statement leaves all names as they are. -/
abbrev ProgramRenamed (x y : String) : List Stmt → List Stmt → Prop :=
  List.Forall₂ fun s s' => Stmt.Renamed x y Eq s s' Eq

theorem ParamsRenamed.length_eq {x y : String} {R R' : Naming} {params params' : List String}
    (h : ParamsRenamed x y R params params' R') : params'.length = params.length := by
  induction h with
  | nil => rfl
  | cons _ _ ih => simp [ih]

namespace FunctionRenamed

variable {x y : String} {R : Naming} {d d' : FunDecl Stmt}

theorem name_eq (h : FunctionRenamed x y R d d') : d'.name = d.name := by
  cases h
  rfl

theorem arity_eq (h : FunctionRenamed x y R d d') : d'.params.length = d.params.length := by
  cases h with
  | mk hp _ => exact hp.length_eq

end FunctionRenamed

/-! Namings. -/

namespace Naming

/-- The name stands for itself, and declaring it anew changes nothing. -/
def Keeps (R : Naming) (name : String) : Prop := R name name ∧ R.declare name name = R

/-- Every name stands for itself, but `y` for nothing. -/
def without (y : String) : Naming := fun n n' => n ≠ y ∧ n' = n

/-- The name `x` is called `y`, which has no meaning of its own. -/
def calling (x y : String) : Naming := fun n n' => n ≠ y ∧ n' = if n = x then y else n

variable {x y a : String}

theorem eq_keeps (a : String) : Keeps Eq a := by
  refine ⟨rfl, ?_⟩
  funext n n'
  simp only [declare, eq_iff_iff]
  grind

theorem without_keeps (h : a ≠ y) : (without y).Keeps a := by
  refine ⟨⟨h, rfl⟩, ?_⟩
  funext n n'
  simp only [declare, without, eq_iff_iff]
  grind

theorem calling_keeps (hx : a ≠ x) (hy : a ≠ y) : (calling x y).Keeps a := by
  refine ⟨⟨hy, by rw [if_neg hx]⟩, ?_⟩
  funext n n'
  simp only [declare, calling, eq_iff_iff]
  grind

theorem eq_calling (h : x ≠ y) : declare Eq x y = calling x y := by
  funext n n'
  simp only [declare, calling, eq_iff_iff]
  grind

theorem calling_hides (h : x ≠ y) : (calling x y).declare x x = without y := by
  funext n n'
  simp only [declare, calling, without, eq_iff_iff]
  grind

end Naming

/-! Code is equal to itself where its names keep their meaning. -/

section
variable {x y : String} {R : Naming}

mutual
theorem Expr.Renamed.refl : (e : Expr) → (∀ n ∈ e.names, R.Keeps n) → e.Renamed R e
  | .literal _ _, _ => .literal
  | .group inner _, h => .group (.refl inner h)
  | .unary _ right _, h => .unary (.refl right h)
  | .binary left _ right _, h =>
    .binary (.refl left fun n hn => h n (List.mem_append_left _ hn))
      (.refl right fun n hn => h n (List.mem_append_right _ hn))
  | .read o _, h => .read ⟨(h o.name (List.mem_singleton_self _)).1, rfl⟩
  | .this o _, h => .this ⟨(h o.name (List.mem_singleton_self _)).1, rfl⟩
  | .assign target value _, h =>
    .assign ⟨(h target.name List.mem_cons_self).1, rfl⟩
      (.refl value fun n hn => h n (List.mem_cons_of_mem _ hn))
  | .get object _ _, h => .get (.refl object h)
  | .set object _ value _, h =>
    .set (.refl object fun n hn => h n (List.mem_append_left _ hn))
      (.refl value fun n hn => h n (List.mem_append_right _ hn))
  | .call callee arguments _, h =>
    .call (.refl callee fun n hn => h n (List.mem_append_left _ hn))
      (.refl arguments fun n hn => h n (List.mem_append_right _ hn))

theorem ArgumentsRenamed.refl : (es : List Expr) → (∀ n ∈ argumentNames es, R.Keeps n) →
    ArgumentsRenamed R es es
  | [], _ => .nil
  | e :: rest, h =>
    .cons (.refl e fun n hn => h n (List.mem_append_left _ hn))
      (.refl rest fun n hn => h n (List.mem_append_right _ hn))
end

theorem OptionalRenamed.refl : (e? : Option Expr) → (∀ n ∈ optionalNames e?, R.Keeps n) →
    OptionalRenamed R e? e?
  | none, _ => .none
  | some e, h => .some (.refl e h)

theorem VarDecl.Renamed.refl (decl : VarDecl) (h : ∀ n ∈ decl.names, R.Keeps n) :
    decl.Renamed x y R decl R := by
  have hd : decl.Renamed x y R decl (R.declare decl.name decl.name) :=
    .mk (.kept _) (.refl _ fun n hn => h n (List.mem_cons_of_mem _ hn))
  rwa [(h decl.name List.mem_cons_self).2] at hd

theorem ForInit.Renamed.refl : (init : ForInit) → (∀ n ∈ init.names, R.Keeps n) →
    init.Renamed x y R init R
  | .nothing, _ => .nothing
  | .declare decl, h => .declare (.refl decl h)
  | .evaluate e, h => .evaluate (.refl e h)

theorem ParamsRenamed.refl (params : List String) (h : ∀ n ∈ params, R.Keeps n) :
    ParamsRenamed x y R params params R := by
  induction params with
  | nil => exact .nil
  | cons a rest ih =>
    refine .cons (.kept a) ?_
    rw [(h a List.mem_cons_self).2]
    exact ih fun n hn => h n (List.mem_cons_of_mem _ hn)

theorem Stmt.Renamed.keptFunction {d d' : FunDecl Stmt} (hk : R.Keeps d.name)
    (h : FunctionRenamed x y R d d') : Stmt.Renamed x y R (.function d) (.function d') R := by
  rw [← hk.2] at h
  have hs := Stmt.Renamed.function h
  rwa [hk.2] at hs

theorem Stmt.Renamed.keptClass {name : String} {methods methods' : List (FunDecl Stmt)}
    {line : Nat} (hk : R.Keeps name) (h : MethodsRenamed x y R methods methods') :
    Stmt.Renamed x y R (.classDecl name methods line) (.classDecl name methods' line) R := by
  rw [← hk.2] at h
  have hs : Stmt.Renamed x y R (.classDecl name methods line) (.classDecl name methods' line) _ :=
    .classDecl h
  rwa [hk.2] at hs

mutual
theorem Stmt.Renamed.refl : (s : Stmt) → (∀ n ∈ s.names, R.Keeps n) → Stmt.Renamed x y R s s R
  | .expression e _, h => .expression (.refl e h)
  | .print e _, h => .print (.refl e h)
  | .var decl, h => .var (.refl decl h)
  | .function decl, h =>
    .keptFunction (h decl.name List.mem_cons_self)
      (.refl decl fun n hn => h n (List.mem_cons_of_mem _ hn))
  | .classDecl name methods _, h =>
    .keptClass (h name List.mem_cons_self)
      (.refl methods fun n hn => h n (List.mem_cons_of_mem _ hn))
  | .block statements _, h => .block (.refl statements h)
  | .ifThen condition thenBranch _, h =>
    .ifThen (.refl condition fun n hn => h n (by simp [Stmt.names, hn]))
      (.refl thenBranch fun n hn => h n (by simp [Stmt.names, hn]))
  | .ifElse condition thenBranch elseBranch _, h =>
    .ifElse (.refl condition fun n hn => h n (by simp [Stmt.names, hn]))
      (.refl thenBranch fun n hn => h n (by simp [Stmt.names, hn]))
      (.refl elseBranch fun n hn => h n (by simp [Stmt.names, hn]))
  | .whileLoop condition body _, h =>
    .whileLoop (.refl condition fun n hn => h n (by simp [Stmt.names, hn]))
      (.refl body fun n hn => h n (by simp [Stmt.names, hn]))
  | .forLoop init condition increment body _, h =>
    .forLoop (.refl init fun n hn => h n (by simp [Stmt.names, hn]))
      (.refl condition fun n hn => h n (by simp [Stmt.names, hn]))
      (.refl increment fun n hn => h n (by simp [Stmt.names, hn]))
      (.refl body fun n hn => h n (by simp [Stmt.names, hn]))
  | .loopExit _ _, _ => .loopExit
  | .returns value _, h => .returns (.refl value h)

theorem StatementsRenamed.refl : (l : List Stmt) → (∀ n ∈ statementsNames l, R.Keeps n) →
    StatementsRenamed x y R l l
  | [], _ => .nil
  | s :: rest, h =>
    .cons (.refl s fun n hn => h n (List.mem_append_left _ hn))
      (.refl rest fun n hn => h n (List.mem_append_right _ hn))

theorem FunctionRenamed.refl : (d : FunDecl Stmt) → (∀ n ∈ functionNames d, R.Keeps n) →
    FunctionRenamed x y R d d
  | ⟨_, params, body, _, _⟩, h =>
    .mk (.refl params fun n hn => h n (List.mem_append_left _ hn))
      (.refl body fun n hn => h n (List.mem_append_right _ hn))

theorem MethodsRenamed.refl : (l : List (FunDecl Stmt)) → (∀ n ∈ methodsNames l, R.Keeps n) →
    MethodsRenamed x y R l l
  | [], _ => .nil
  | d :: rest, h =>
    .cons (.refl d fun n hn => h n (List.mem_append_left _ hn))
      (.refl rest fun n hn => h n (List.mem_append_right _ hn))
end

end

end Lox
