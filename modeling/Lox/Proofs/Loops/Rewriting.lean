import Lox.Proofs.Scope.WellScoped
import Lox.Proofs.Scope.Writable

/-! A `for` loop in a program, rewritten as a `while` loop that has the increment behind its body
and in front of each `continue`. -/
namespace Lox

mutual
/-- The names that an expression reads or assigns, `this` among them. -/
def Expr.names : Expr → List String
  | .literal _ _ => []
  | .group inner _ => inner.names
  | .unary _ right _ => right.names
  | .binary left _ right _ => left.names ++ right.names
  | .read o _ | .this o _ => [o.name]
  | .assign target value _ => target.name :: value.names
  | .get object _ _ => object.names
  | .set object _ value _ => object.names ++ value.names
  | .call callee arguments _ => callee.names ++ argumentNames arguments

def argumentNames : List Expr → List String
  | [] => []
  | e :: rest => e.names ++ argumentNames rest
end

def optionalNames : Option Expr → List String
  | none => []
  | some e => e.names

def ForInit.declaredNames : ForInit → List String
  | declare decl => [decl.name]
  | _ => []

mutual
/-- The names that a statement declares, in whatever block; functions inside it are not looked
into. -/
def Stmt.declaredNames : Stmt → List String
  | .var decl => [decl.name]
  | .function decl => [decl.name]
  | .classDecl name _ _ => [name]
  | .block statements _ => statementsDeclaredNames statements
  | .ifThen _ thenBranch _ => thenBranch.declaredNames
  | .ifElse _ thenBranch elseBranch _ => thenBranch.declaredNames ++ elseBranch.declaredNames
  | .whileLoop _ body _ => body.declaredNames
  | .forLoop init _ _ body _ => init.declaredNames ++ body.declaredNames
  | .expression _ _ | .print _ _ | .loopExit _ _ | .returns _ _ => []

def statementsDeclaredNames : List Stmt → List String
  | [] => []
  | s :: rest => s.declaredNames ++ statementsDeclaredNames rest
end

mutual
/-- The statement with `turn` in front of every `continue` that belongs to the loop around it. -/
def Stmt.continueWith (turn : List Stmt) : Stmt → Stmt
  | .block statements line => .block (statementsContinueWith turn statements) line
  | .ifThen condition thenBranch line => .ifThen condition (thenBranch.continueWith turn) line
  | .ifElse condition thenBranch elseBranch line =>
    .ifElse condition (thenBranch.continueWith turn) (elseBranch.continueWith turn) line
  | .loopExit .toNext line => .block (turn ++ [.loopExit .toNext line]) line
  | s => s

def statementsContinueWith (turn : List Stmt) : List Stmt → List Stmt
  | [] => []
  | s :: rest => s.continueWith turn :: statementsContinueWith turn rest
end

/-- The first clause of a loop as statements. -/
def ForInit.statements (line : Nat) : ForInit → List Stmt
  | nothing => []
  | declare decl => [.var decl]
  | evaluate e => [.expression e line]

/-- The increment of a loop as statements. -/
def turnStatements (line : Nat) (increment : Option Expr) : List Stmt :=
  increment.toList.map fun e => .expression e line

/-- A `while` loop that has the increment behind its body, in a block behind the first clause. -/
def Stmt.asWhile (init : ForInit) (condition increment : Option Expr) (body : Stmt) (line : Nat) :
    Stmt :=
  .block (init.statements line ++
    [.whileLoop (condition.getD (.literal (.bool true) line))
      (.block (body :: turnStatements line increment) line) line]) line

mutual
/-- One `for` loop is rewritten, somewhere in the statement. Its body does not declare a name of
the increment anew. -/
inductive Stmt.Desugars : Stmt → Stmt → Prop
  | loop {init : ForInit} {condition increment : Option Expr} {body : Stmt} {line : Nat} :
    (∀ name ∈ optionalNames increment, name ≠ "this" → name ∉ body.declaredNames) →
      Stmt.Desugars (.forLoop init condition increment body line)
        (.asWhile init condition increment (body.continueWith (turnStatements line increment)) line)
  | inFunction {name : String} {params : List String} {body body' : List Stmt} {line site : Nat} :
    StatementsDesugar body body' →
      Stmt.Desugars (.function ⟨name, params, body, line, site⟩)
        (.function ⟨name, params, body', line, site⟩)
  | inClass {name : String} {methods methods' : List (FunDecl Stmt)} {line : Nat} :
    MethodsDesugar methods methods' →
      Stmt.Desugars (.classDecl name methods line) (.classDecl name methods' line)
  | inBlock {statements statements' : List Stmt} {line : Nat} :
    StatementsDesugar statements statements' →
      Stmt.Desugars (.block statements line) (.block statements' line)
  | inIf {condition : Expr} {thenBranch thenBranch' : Stmt} {line : Nat} :
    Stmt.Desugars thenBranch thenBranch' →
      Stmt.Desugars (.ifThen condition thenBranch line) (.ifThen condition thenBranch' line)
  | inThen {condition : Expr} {thenBranch thenBranch' elseBranch : Stmt} {line : Nat} :
    Stmt.Desugars thenBranch thenBranch' →
      Stmt.Desugars (.ifElse condition thenBranch elseBranch line)
        (.ifElse condition thenBranch' elseBranch line)
  | inElse {condition : Expr} {thenBranch elseBranch elseBranch' : Stmt} {line : Nat} :
    Stmt.Desugars elseBranch elseBranch' →
      Stmt.Desugars (.ifElse condition thenBranch elseBranch line)
        (.ifElse condition thenBranch elseBranch' line)
  | inWhile {condition : Expr} {body body' : Stmt} {line : Nat} : Stmt.Desugars body body' →
      Stmt.Desugars (.whileLoop condition body line) (.whileLoop condition body' line)
  | inFor {init : ForInit} {condition increment : Option Expr} {body body' : Stmt} {line : Nat} :
    Stmt.Desugars body body' →
      Stmt.Desugars (.forLoop init condition increment body line)
        (.forLoop init condition increment body' line)

inductive StatementsDesugar : List Stmt → List Stmt → Prop
  | first {s s' : Stmt} {rest : List Stmt} : Stmt.Desugars s s' →
    StatementsDesugar (s :: rest) (s' :: rest)
  | later {s : Stmt} {rest rest' : List Stmt} : StatementsDesugar rest rest' →
    StatementsDesugar (s :: rest) (s :: rest')

inductive MethodsDesugar : List (FunDecl Stmt) → List (FunDecl Stmt) → Prop
  | first {name : String} {params : List String} {body body' : List Stmt} {line site : Nat}
    {rest : List (FunDecl Stmt)} : StatementsDesugar body body' →
      MethodsDesugar (⟨name, params, body, line, site⟩ :: rest)
        (⟨name, params, body', line, site⟩ :: rest)
  | later {d : FunDecl Stmt} {rest rest' : List (FunDecl Stmt)} : MethodsDesugar rest rest' →
    MethodsDesugar (d :: rest) (d :: rest')
end

/-! The rewritten program is one of the grammar. -/

open Grammar (Context)

theorem optionalGrammatical_turn {inClass : Bool} {increment : Option Expr}
    (h : optionalGrammatical inClass increment) (line : Nat) :
    ∀ s ∈ turnStatements line increment, ∀ ctx : Context, ctx.inClass = inClass →
      s.Grammatical ctx := by
  cases increment with
  | none => simp [turnStatements]
  | some e =>
    rintro s hs ctx rfl
    cases List.mem_singleton.1 hs
    exact h

theorem statementsGrammatical_iff {ctx : Context} {statements : List Stmt} :
    statementsGrammatical ctx statements ↔ ∀ s ∈ statements, s.Grammatical ctx := by
  induction statements with
  | nil => simp [statementsGrammatical]
  | cons s rest ih => simp [statementsGrammatical, ih]

section
variable {turn : List Stmt}

theorem Stmt.continueWith_isDeclaration (s : Stmt) :
    (s.continueWith turn).isDeclaration = s.isDeclaration := by
  cases s with
  | loopExit exit line => cases exit <;> rfl
  | _ => rfl

theorem Stmt.continueWith_takesElse (s : Stmt) :
    (s.continueWith turn).takesElse = s.takesElse := by
  cases s with
  | loopExit exit line => cases exit <;> rfl
  | ifElse condition thenBranch elseBranch line => exact elseBranch.continueWith_takesElse
  | _ => rfl

mutual
theorem Stmt.continueWith_grammatical {ctx : Context} (hloop : ctx.inLoop)
    (ht : ∀ s ∈ turn, s.Grammatical ctx) : (s : Stmt) → s.Grammatical ctx →
      (s.continueWith turn).Grammatical ctx
  | .block statements _, h => statementsContinueWith_grammatical hloop ht statements h
  | .ifThen _ thenBranch _, ⟨hc, hd, h⟩ =>
    ⟨hc, by rw [Stmt.continueWith_isDeclaration, hd],
      thenBranch.continueWith_grammatical hloop ht h⟩
  | .ifElse _ thenBranch elseBranch _, ⟨hc, ⟨hd, he, h⟩, hd', h'⟩ =>
    ⟨hc, ⟨by rw [Stmt.continueWith_isDeclaration, hd], by rw [Stmt.continueWith_takesElse, he],
      thenBranch.continueWith_grammatical hloop ht h⟩,
      by rw [Stmt.continueWith_isDeclaration, hd'],
      elseBranch.continueWith_grammatical hloop ht h'⟩
  | .loopExit .toNext _, _ => by
    simp only [Stmt.continueWith, Stmt.Grammatical, statementsGrammatical_iff]
    intro s hs
    rcases List.mem_append.1 hs with hs | hs
    · exact ht s hs
    · cases List.mem_singleton.1 hs
      exact hloop
  | .loopExit .toEnd _, h => h
  | .expression _ _, h | .print _ _, h | .var _, h | .function _, h | .classDecl _ _ _, h
  | .whileLoop _ _ _, h | .forLoop _ _ _ _ _, h | .returns _ _, h => h

theorem statementsContinueWith_grammatical {ctx : Context} (hloop : ctx.inLoop)
    (ht : ∀ s ∈ turn, s.Grammatical ctx) : (statements : List Stmt) →
      statementsGrammatical ctx statements →
        statementsGrammatical ctx (statementsContinueWith turn statements)
  | [], _ => trivial
  | s :: rest, ⟨h, h'⟩ =>
    ⟨s.continueWith_grammatical hloop ht h, statementsContinueWith_grammatical hloop ht rest h'⟩
end

end

theorem Stmt.asWhile_grammatical {ctx : Context} {init : ForInit}
    {condition increment : Option Expr} {body : Stmt} {line : Nat}
    (h : (Stmt.forLoop init condition increment body line).Grammatical ctx) :
    (Stmt.asWhile init condition increment (body.continueWith (turnStatements line increment))
      line).Grammatical ctx := by
  rcases h with ⟨⟨hi, hc, hn⟩, hd, hb⟩
  have hturn (s : Stmt) (hs : s ∈ turnStatements line increment) : s.Grammatical ctx.enterLoop :=
    optionalGrammatical_turn hn line s hs ctx.enterLoop rfl
  have hloop : ctx.enterLoop.inLoop := rfl
  have hbody := body.continueWith_grammatical hloop hturn hb
  have hround : (Stmt.block (body.continueWith (turnStatements line increment) ::
      turnStatements line increment) line).Grammatical ctx.enterLoop :=
    ⟨hbody, statementsGrammatical_iff.2 hturn⟩
  have hcondition : (condition.getD (.literal (.bool true) line)).Grammatical ctx.inClass := by
    cases condition with
    | none => trivial
    | some e => exact hc
  have hinit : ∀ s ∈ init.statements line, s.Grammatical ctx := by
    cases init with
    | nothing => simp [ForInit.statements]
    | declare decl => exact List.forall_mem_singleton.2 hi
    | evaluate e => exact List.forall_mem_singleton.2 hi
  show statementsGrammatical ctx (init.statements line ++ [_])
  rw [statementsGrammatical_iff, List.forall_mem_append, List.forall_mem_singleton]
  exact ⟨hinit, hcondition, rfl, hround⟩

theorem Stmt.Desugars.isDeclaration {s s' : Stmt} (h : s.Desugars s') :
    s'.isDeclaration = s.isDeclaration := by
  cases h <;> rfl

mutual
theorem Stmt.Desugars.takesElse : {s s' : Stmt} → s.Desugars s' → s.takesElse = false →
    s'.takesElse = false
  | _, _, .loop _, _ => rfl
  | _, _, .inElse h, he => h.takesElse he
  | _, _, .inWhile h, he => h.takesElse he
  | _, _, .inFor h, he => h.takesElse he
  | _, _, .inThen _, he => he
  | _, _, .inFunction _, _ | _, _, .inClass _, _ | _, _, .inBlock _, _ => rfl

theorem Stmt.Desugars.grammatical {ctx : Context} : {s s' : Stmt} → s.Desugars s' →
    s.Grammatical ctx → s'.Grammatical ctx
  | _, _, .loop _, hg => Stmt.asWhile_grammatical hg
  | _, _, .inFunction h, ⟨hp, hb, hs⟩ => ⟨hp, h.grammatical hb, hs⟩
  | _, _, .inClass h, hg => h.grammatical hg
  | _, _, .inBlock h, hg => h.grammatical hg
  | _, _, .inIf h, ⟨hc, hd, ht⟩ => ⟨hc, h.isDeclaration ▸ hd, h.grammatical ht⟩
  | _, _, .inThen h, ⟨hc, ⟨hd, he, ht⟩, helse⟩ =>
    ⟨hc, ⟨h.isDeclaration ▸ hd, h.takesElse he, h.grammatical ht⟩, helse⟩
  | _, _, .inElse h, ⟨hc, hthen, hd, he⟩ =>
    ⟨hc, hthen, h.isDeclaration ▸ hd, h.grammatical he⟩
  | _, _, .inWhile h, ⟨hc, hd, hb⟩ => ⟨hc, h.isDeclaration ▸ hd, h.grammatical hb⟩
  | _, _, .inFor h, ⟨hi, hd, hb⟩ => ⟨hi, h.isDeclaration ▸ hd, h.grammatical hb⟩

theorem StatementsDesugar.grammatical {ctx : Context} : {l l' : List Stmt} →
    StatementsDesugar l l' → statementsGrammatical ctx l → statementsGrammatical ctx l'
  | _, _, .first h, ⟨hs, hrest⟩ => ⟨h.grammatical hs, hrest⟩
  | _, _, .later h, ⟨hs, hrest⟩ => ⟨hs, h.grammatical hrest⟩

theorem MethodsDesugar.grammatical {ctx : Context} : {l l' : List (FunDecl Stmt)} →
    MethodsDesugar l l' → methodsGrammatical ctx l → methodsGrammatical ctx l'
  | _, _, .first h, ⟨⟨hp, hb, hs⟩, hrest⟩ => ⟨⟨hp, h.grammatical hb, hs⟩, hrest⟩
  | _, _, .later h, ⟨hd, hrest⟩ => ⟨hd, h.grammatical hrest⟩
end

/-! A source can have the rewritten program. -/

theorem VarDecl.name_ne_this {decl : VarDecl} (h : Symbol.thisName ∉ decl.symbols) :
    decl.name ≠ "this" :=
  Lox.name_ne_this fun hn => h (by simp [VarDecl.symbols, hn])

mutual
theorem Stmt.this_not_declared : (s : Stmt) → s.Writable → "this" ∉ s.declaredNames
  | .var decl, h => by
    have hn := VarDecl.name_ne_this (Stmt.writable_var.1 h)
    simpa [Stmt.declaredNames] using hn.symm
  | .function ⟨_, _, _, _, _⟩, h => by
    have hn := (functionWritable_mk.1 (Stmt.writable_function.1 h)).1
    simpa [Stmt.declaredNames] using hn.symm
  | .classDecl _ _ _, h => by
    have hn := (Stmt.writable_classDecl.1 h).1
    simpa [Stmt.declaredNames] using hn.symm
  | .block statements _, h => statements_this_not_declared statements (Stmt.writable_block.1 h)
  | .ifThen _ thenBranch _, h => thenBranch.this_not_declared (Stmt.writable_ifThen.1 h).2
  | .ifElse _ thenBranch elseBranch _, h => by
    obtain ⟨-, ht, he⟩ := Stmt.writable_ifElse.1 h
    simp [Stmt.declaredNames, thenBranch.this_not_declared ht, elseBranch.this_not_declared he]
  | .whileLoop _ body _, h => body.this_not_declared (Stmt.writable_whileLoop.1 h).2
  | .forLoop init _ _ body _, h => by
    obtain ⟨hi, -, -, hb⟩ := Stmt.writable_forLoop.1 h
    have hinit : "this" ∉ init.declaredNames := by
      cases init with
      | declare decl =>
        have hn : decl.name ≠ "this" := by
          apply VarDecl.name_ne_this
          intro h
          exact hi (by simp [ForInit.symbols, h])
        simpa [ForInit.declaredNames] using hn.symm
      | _ => simp [ForInit.declaredNames]
    simp [Stmt.declaredNames, hinit, body.this_not_declared hb]
  | .expression _ _, _ | .print _ _, _ | .loopExit _ _, _ | .returns _ _, _ => List.not_mem_nil

theorem statements_this_not_declared : (statements : List Stmt) →
    statementsWritable statements → "this" ∉ statementsDeclaredNames statements
  | [], _ => List.not_mem_nil
  | s :: rest, h => by
    obtain ⟨hs, hrest⟩ := statementsWritable_cons.1 h
    simp [statementsDeclaredNames, s.this_not_declared hs,
      statements_this_not_declared rest hrest]
end

section
variable {turn : List Stmt}

mutual
theorem Stmt.continueWith_writable (ht : ∀ s ∈ turn, s.Writable) : (s : Stmt) → s.Writable →
    (s.continueWith turn).Writable
  | .block statements _, h => by
    rw [Stmt.writable_block] at h
    exact Stmt.writable_block.2 (statementsContinueWith_writable ht statements h)
  | .ifThen _ thenBranch _, h => by
    rw [Stmt.writable_ifThen] at h
    exact Stmt.writable_ifThen.2 ⟨h.1, thenBranch.continueWith_writable ht h.2⟩
  | .ifElse _ thenBranch elseBranch _, h => by
    rw [Stmt.writable_ifElse] at h
    exact Stmt.writable_ifElse.2 ⟨h.1, thenBranch.continueWith_writable ht h.2.1,
      elseBranch.continueWith_writable ht h.2.2⟩
  | .loopExit .toNext _, _ => by
    rw [Stmt.continueWith, Stmt.writable_block, statementsWritable_iff, List.forall_mem_append,
      List.forall_mem_singleton]
    exact ⟨ht, Stmt.writable_loopExit⟩
  | .loopExit .toEnd _, h => h
  | .expression _ _, h | .print _ _, h | .var _, h | .function _, h | .classDecl _ _ _, h
  | .whileLoop _ _ _, h | .forLoop _ _ _ _ _, h | .returns _ _, h => h

theorem statementsContinueWith_writable (ht : ∀ s ∈ turn, s.Writable) :
    (statements : List Stmt) → statementsWritable statements →
      statementsWritable (statementsContinueWith turn statements)
  | [], h => h
  | s :: rest, h => by
    rw [statementsWritable_cons] at h
    exact statementsWritable_cons.2 ⟨s.continueWith_writable ht h.1,
      statementsContinueWith_writable ht rest h.2⟩
end

end

theorem Stmt.asWhile_writable {init : ForInit} {condition increment : Option Expr} {body : Stmt}
    {line : Nat} (h : (Stmt.forLoop init condition increment body line).Writable) :
    (Stmt.asWhile init condition increment (body.continueWith (turnStatements line increment))
      line).Writable := by
  rw [writable_forLoop] at h
  obtain ⟨hi, hc, hn, hb⟩ := h
  have hturn : ∀ s ∈ turnStatements line increment, s.Writable := by
    cases increment with
    | none => simp [turnStatements]
    | some e => simpa [turnStatements, optionalSymbols] using hn
  have hinit : ∀ s ∈ init.statements line, s.Writable := by
    cases init with
    | nothing => simp [ForInit.statements]
    | declare decl => simpa [ForInit.statements, ForInit.symbols, Symbol.mark_ne_thisName] using hi
    | evaluate e => simpa [ForInit.statements, ForInit.symbols, Symbol.mark_ne_thisName] using hi
  have hcondition : Symbol.thisName ∉ (condition.getD (.literal (.bool true) line)).symbols := by
    cases condition with
    | none => simp [Expr.symbols, Symbol.thisName, Symbol.literal, Symbol.identifier]
    | some e => exact hc
  rw [asWhile, writable_block, statementsWritable_iff, List.forall_mem_append,
    List.forall_mem_singleton, writable_whileLoop, writable_block, statementsWritable_iff,
    List.forall_mem_cons]
  exact ⟨hinit, hcondition, body.continueWith_writable hturn hb, hturn⟩

mutual
theorem Stmt.Desugars.writable : {s s' : Stmt} → s.Desugars s' → s.Writable → s'.Writable
  | _, _, .loop _, hs => Stmt.asWhile_writable hs
  | _, _, .inFunction h, hs => by
    simp only [Stmt.writable_function, functionWritable_mk] at hs ⊢
    exact ⟨hs.1, hs.2.1, h.writable hs.2.2⟩
  | _, _, .inClass h, hs => by
    rw [Stmt.writable_classDecl] at hs ⊢
    exact ⟨hs.1, h.writable hs.2⟩
  | _, _, .inBlock h, hs => by
    rw [Stmt.writable_block] at hs ⊢
    exact h.writable hs
  | _, _, .inIf h, hs => by
    rw [Stmt.writable_ifThen] at hs ⊢
    exact ⟨hs.1, h.writable hs.2⟩
  | _, _, .inThen h, hs => by
    rw [Stmt.writable_ifElse] at hs ⊢
    exact ⟨hs.1, h.writable hs.2.1, hs.2.2⟩
  | _, _, .inElse h, hs => by
    rw [Stmt.writable_ifElse] at hs ⊢
    exact ⟨hs.1, hs.2.1, h.writable hs.2.2⟩
  | _, _, .inWhile h, hs => by
    rw [Stmt.writable_whileLoop] at hs ⊢
    exact ⟨hs.1, h.writable hs.2⟩
  | _, _, .inFor h, hs => by
    rw [Stmt.writable_forLoop] at hs ⊢
    exact ⟨hs.1, hs.2.1, hs.2.2.1, h.writable hs.2.2.2⟩

theorem StatementsDesugar.writable : {l l' : List Stmt} → StatementsDesugar l l' →
    statementsWritable l → statementsWritable l'
  | _, _, .first h, hs => by
    rw [statementsWritable_cons] at hs ⊢
    exact ⟨h.writable hs.1, hs.2⟩
  | _, _, .later h, hs => by
    rw [statementsWritable_cons] at hs ⊢
    exact ⟨hs.1, h.writable hs.2⟩

theorem MethodsDesugar.writable : {l l' : List (FunDecl Stmt)} → MethodsDesugar l l' →
    methodsWritable l → methodsWritable l'
  | _, _, .first h, hs => by
    simp only [methodsWritable_cons, functionWritable_mk] at hs ⊢
    exact ⟨⟨hs.1.1, hs.1.2.1, h.writable hs.1.2.2⟩, hs.2⟩
  | _, _, .later h, hs => by
    rw [methodsWritable_cons] at hs ⊢
    exact ⟨hs.1, h.writable hs.2⟩
end

/-! The walk of the scopes accepts the rewritten program exactly if it accepts the program. -/

section
variable {here : Visible} {increment : Option Expr} {line : Nat}

theorem statementsWellScoped_turn {rest : List Stmt} :
    statementsWellScoped here (turnStatements line increment ++ rest) ↔
      statementsWellScoped here rest := by
  cases increment with
  | none => rfl
  | some e => exact iff_of_eq (true_and _)

theorem Stmt.continueWith_extend {turn : List Stmt} (s : Stmt) (vis : Visible) :
    (s.continueWith turn).extend vis = s.extend vis := by
  cases s with
  | loopExit exit line => cases exit <;> rfl
  | _ => rfl

mutual
theorem Stmt.continueWith_wellScoped {here : Visible} : (s : Stmt) →
    ((s.continueWith (turnStatements line increment)).WellScoped here ↔ s.WellScoped here)
  | .block statements _ => statementsContinueWith_wellScoped statements
  | .ifThen _ thenBranch _ => thenBranch.continueWith_wellScoped
  | .ifElse _ thenBranch elseBranch _ =>
    and_congr thenBranch.continueWith_wellScoped elseBranch.continueWith_wellScoped
  | .loopExit .toNext _ => by
    rw [Stmt.continueWith, Stmt.WellScoped, statementsWellScoped_turn]
    simp [statementsWellScoped, Stmt.WellScoped]
  | .loopExit .toEnd _ | .expression _ _ | .print _ _ | .var _ | .function _ | .classDecl _ _ _
  | .whileLoop _ _ _ | .forLoop _ _ _ _ _ | .returns _ _ => Iff.rfl

theorem statementsContinueWith_wellScoped {here : Visible} : (statements : List Stmt) →
    (statementsWellScoped here
      (statementsContinueWith (turnStatements line increment) statements) ↔
        statementsWellScoped here statements)
  | [] => Iff.rfl
  | s :: rest => by
    simp only [statementsContinueWith, statementsWellScoped, Stmt.continueWith_extend,
      s.continueWith_wellScoped, statementsContinueWith_wellScoped rest]
end

end

theorem Stmt.asWhile_wellScoped {here : Visible} {ctx : Context} {init : ForInit}
    {condition increment : Option Expr} {body : Stmt} {line : Nat}
    (h : (Stmt.forLoop init condition increment body line).Grammatical ctx) :
    (Stmt.asWhile init condition increment (body.continueWith (turnStatements line increment))
      line).WellScoped here ↔
      (Stmt.forLoop init condition increment body line).WellScoped here := by
  have hd := h.2.2.declaresNothing h.2.1
  -- the scope around the body is another one, but the body declares nothing in it
  have hround (here here' : Visible) :
      (Stmt.block (body.continueWith (turnStatements line increment) ::
        turnStatements line increment) line).WellScoped here ↔ body.WellScoped here' := by
    have hturn (vis : Visible) : statementsWellScoped vis (turnStatements line increment) := by
      rw [← List.append_nil (turnStatements line increment), statementsWellScoped_turn]
      trivial
    simp only [Stmt.WellScoped, statementsWellScoped, Stmt.continueWith_wellScoped, hturn,
      and_true]
    exact ⟨body.wellScoped_congr hd, body.wellScoped_congr hd⟩
  have hloop (here here' : Visible) :
      statementsWellScoped here [.whileLoop (condition.getD (.literal (.bool true) line))
        (.block (body.continueWith (turnStatements line increment) ::
          turnStatements line increment) line) line] ↔ body.WellScoped here' :=
    (iff_of_eq (and_true _)).trans (hround here here')
  cases init with
  | nothing => exact (hloop [[]] _).trans (iff_of_eq (true_and _)).symm
  | evaluate e =>
    exact (iff_of_eq (true_and _)).trans ((hloop [[]] _).trans (iff_of_eq (true_and _)).symm)
  | declare decl => exact and_congr_right' (hloop _ _)

theorem Stmt.Desugars.extend {s s' : Stmt} (h : s.Desugars s') (vis : Visible) :
    s'.extend vis = s.extend vis := by
  cases h <;> rfl

mutual
theorem Stmt.Desugars.wellScoped {ctx : Context} {here : Visible} : {s s' : Stmt} →
    s.Desugars s' → s.Grammatical ctx → (s'.WellScoped here ↔ s.WellScoped here)
  | _, _, .loop _, hg => Stmt.asWhile_wellScoped hg
  | _, _, .inFunction h, ⟨_, hb, _⟩ => and_congr_right' (and_congr_right' (h.wellScoped hb))
  | _, _, .inClass h, hg => and_congr_right' (h.wellScoped hg)
  | _, _, .inBlock h, hg => h.wellScoped hg
  | _, _, .inIf h, ⟨_, _, ht⟩ => h.wellScoped ht
  | _, _, .inThen h, ⟨_, ⟨_, _, ht⟩, _⟩ => and_congr_left' (h.wellScoped ht)
  | _, _, .inElse h, ⟨_, _, _, he⟩ => and_congr_right' (h.wellScoped he)
  | _, _, .inWhile h, ⟨_, _, hb⟩ => h.wellScoped hb
  | _, _, .inFor h, ⟨_, _, hb⟩ => and_congr_right' (h.wellScoped hb)

theorem StatementsDesugar.wellScoped {ctx : Context} {here : Visible} : {l l' : List Stmt} →
    StatementsDesugar l l' → statementsGrammatical ctx l →
      (statementsWellScoped here l' ↔ statementsWellScoped here l)
  | _, _, .first h, ⟨hs, _⟩ => by
    rw [statementsWellScoped, statementsWellScoped, h.wellScoped hs, h.extend]
  | _, _, .later h, ⟨_, hrest⟩ => and_congr_right' (h.wellScoped hrest)

theorem MethodsDesugar.wellScoped {ctx : Context} : {l l' : List (FunDecl Stmt)} →
    MethodsDesugar l l' → methodsGrammatical ctx l → (methodsWellScoped l' ↔ methodsWellScoped l)
  | _, _, .first h, ⟨⟨_, hb, _⟩, _⟩ =>
    and_congr_left' (and_congr_right' (h.wellScoped hb))
  | _, _, .later h, ⟨_, hrest⟩ => and_congr_right' (h.wellScoped hrest)
end

end Lox
