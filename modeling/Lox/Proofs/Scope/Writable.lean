import Lox.Proofs.Scope.Placing

/-! Trees that a source can have: no name in them is `this`. -/
namespace Lox

/-- A source can have the statement: some spelling of it is without a name `this`. -/
def Stmt.Writable (s : Stmt) : Prop := ∃ w, s.SpelledAs w ∧ Symbol.thisName ∉ w

def statementsWritable (statements : List Stmt) : Prop :=
  ∃ w, statementsSpelledAs statements w ∧ Symbol.thisName ∉ w

def functionWritable (decl : FunDecl Stmt) : Prop :=
  ∃ w, functionSpelledAs decl w ∧ Symbol.thisName ∉ w

def methodsWritable (methods : List (FunDecl Stmt)) : Prop :=
  ∃ w, methodsSpelledAs methods w ∧ Symbol.thisName ∉ w

theorem Symbol.mark_ne_thisName {kind : Kind} (h : kind ≠ .identifier) :
    Symbol.thisName ≠ .mark kind := by
  intro he
  exact h (congrArg Symbol.kind he).symm

@[simp] theorem Symbol.thisName_eq_identifier {name : String} :
    Symbol.thisName = .identifier name ↔ name = "this" := by
  simp [Symbol.thisName, Symbol.identifier, eq_comm]

namespace Stmt

variable {condition : Expr} {body thenBranch elseBranch : Stmt} {statements : List Stmt}
variable {line : Nat}

@[simp] theorem writable_expression {e : Expr} :
    (expression e line).Writable ↔ Symbol.thisName ∉ e.symbols := by
  simp [Writable, SpelledAs, Symbol.mark_ne_thisName]

@[simp] theorem writable_print {e : Expr} :
    (print e line).Writable ↔ Symbol.thisName ∉ e.symbols := by
  simp [Writable, SpelledAs, Symbol.mark_ne_thisName]

@[simp] theorem writable_var {decl : VarDecl} :
    (var decl).Writable ↔ Symbol.thisName ∉ decl.symbols := by
  simp [Writable, SpelledAs, Symbol.mark_ne_thisName]

@[simp] theorem writable_function {decl : FunDecl Stmt} :
    (function decl).Writable ↔ functionWritable decl := by
  simp [Writable, functionWritable, SpelledAs, Symbol.mark_ne_thisName]

@[simp] theorem writable_classDecl {name : String} {methods : List (FunDecl Stmt)} :
    (classDecl name methods line).Writable ↔ name ≠ "this" ∧ methodsWritable methods := by
  constructor
  · rintro ⟨_, ⟨v, hv, rfl⟩, hw⟩
    exact ⟨name_ne_this fun h => hw (by simp [h]), v, hv, fun h => hw (by simp [h])⟩
  · rintro ⟨hn, v, hv, hw⟩
    refine ⟨_, ⟨v, hv, rfl⟩, ?_⟩
    simp [Symbol.mark_ne_thisName, hn, hw]

@[simp] theorem writable_block :
    (block statements line).Writable ↔ statementsWritable statements := by
  simp [Writable, statementsWritable, SpelledAs, Symbol.mark_ne_thisName]

@[simp] theorem writable_ifThen : (ifThen condition thenBranch line).Writable ↔
    Symbol.thisName ∉ condition.symbols ∧ thenBranch.Writable := by
  simp [Writable, SpelledAs, Symbol.mark_ne_thisName]
  grind

@[simp] theorem writable_ifElse : (ifElse condition thenBranch elseBranch line).Writable ↔
    Symbol.thisName ∉ condition.symbols ∧ thenBranch.Writable ∧ elseBranch.Writable := by
  simp [Writable, SpelledAs, Symbol.mark_ne_thisName]
  grind

@[simp] theorem writable_whileLoop : (whileLoop condition body line).Writable ↔
    Symbol.thisName ∉ condition.symbols ∧ body.Writable := by
  simp [Writable, SpelledAs, Symbol.mark_ne_thisName]
  grind

@[simp] theorem writable_forLoop {init : ForInit} {condition increment : Option Expr} :
    (forLoop init condition increment body line).Writable ↔
      Symbol.thisName ∉ init.symbols ∧ Symbol.thisName ∉ optionalSymbols condition ∧
        Symbol.thisName ∉ optionalSymbols increment ∧ body.Writable := by
  simp [Writable, SpelledAs, Symbol.mark_ne_thisName]
  grind

@[simp] theorem writable_loopExit {exit : LoopExit} : (loopExit exit line).Writable := by
  cases exit <;> simp [Writable, SpelledAs, LoopExit.kind, Symbol.mark_ne_thisName]

@[simp] theorem writable_returns {value : Option Expr} :
    (returns value line).Writable ↔ Symbol.thisName ∉ optionalSymbols value := by
  simp [Writable, SpelledAs, Symbol.mark_ne_thisName]

end Stmt

@[simp] theorem statementsWritable_nil : statementsWritable [] := by
  simp [statementsWritable, statementsSpelledAs]

@[simp] theorem statementsWritable_cons {s : Stmt} {rest : List Stmt} :
    statementsWritable (s :: rest) ↔ s.Writable ∧ statementsWritable rest := by
  simp [statementsWritable, Stmt.Writable, statementsSpelledAs]
  grind

theorem statementsWritable_iff {statements : List Stmt} :
    statementsWritable statements ↔ ∀ s ∈ statements, s.Writable := by
  induction statements with
  | nil => simp
  | cons s rest ih => simp [ih]

@[simp] theorem functionWritable_mk {name : String} {params : List String} {body : List Stmt}
    {line site : Nat} : functionWritable ⟨name, params, body, line, site⟩ ↔
      name ≠ "this" ∧ Symbol.thisName ∉ parameterSymbols params ∧ statementsWritable body := by
  simp [functionWritable, functionSpelledAs, statementsWritable, Symbol.mark_ne_thisName]
  grind

theorem thisName_mem_parameterSymbols {params : List String} :
    Symbol.thisName ∈ parameterSymbols params ↔ "this" ∈ params := by
  have hcomma : Symbol.thisName ≠ .mark .comma := Symbol.mark_ne_thisName (by decide)
  unfold parameterSymbols
  induction params with
  | nil => simp
  | cons a rest ih =>
    cases rest with
    | nil => simp [eq_comm]
    | cons b rest =>
      have hrest : Symbol.thisName ∈ List.intersperse (.mark .comma)
          (.identifier b :: rest.map Symbol.identifier) ↔ "this" ∈ b :: rest := ih
      simp only [List.map_cons, List.intersperse_cons_cons, List.mem_cons, hcomma, false_or,
        Symbol.thisName_eq_identifier] at hrest ⊢
      simp only [hrest, eq_comm]
@[simp] theorem methodsWritable_nil : methodsWritable [] := by
  simp [methodsWritable, methodsSpelledAs]

@[simp] theorem methodsWritable_cons {d : FunDecl Stmt} {rest : List (FunDecl Stmt)} :
    methodsWritable (d :: rest) ↔ functionWritable d ∧ methodsWritable rest := by
  constructor
  · rintro ⟨w, ⟨u, v, hu, hv, rfl | rfl⟩, hw⟩
    · exact ⟨⟨u, hu, fun h => hw (by simp [h])⟩, v, hv, fun h => hw (by simp [h])⟩
    · exact ⟨⟨u, hu, fun h => hw (by simp [h])⟩, v, hv, fun h => hw (by simp [h])⟩
  · rintro ⟨⟨u, hu, hu'⟩, v, hv, hv'⟩
    exact ⟨u ++ v, ⟨u, v, hu, hv, .inl rfl⟩, by simp [hu', hv']⟩

theorem locateProgram_placed {program : List Stmt} (hg : statementsGrammatical .top program)
    (hw : statementsWritable program) (hq : (locateProgram program).2 = []) :
    statementsPlaced .top [] (locateProgram program).1 := by
  obtain ⟨w, hs, hw⟩ := hw
  have hstart : Scoping.start.Around .top [] := ⟨.nil, fun h => by cases h⟩
  exact (statementsPlacedByWalk_all program hstart hg hs hw hq).1

end Lox
