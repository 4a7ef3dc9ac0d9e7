import Lox.Proofs.Lines.Grafting

/-! Every rule of the grammar that reads in front of one tail reads the same in front of another,
but for the lines, if it has as much fuel or more. -/
namespace Lox.Grammar

/-- The rules for expressions at two amounts of fuel. -/
structure ExpressionsCarry (g : Graft) (fuel fuel' : Nat) : Prop where
  expression (ctx : Context) :
    (expression fuel ctx).Carries g 1 0 (Expr.relined g.lines) (expression fuel' ctx)
  operators (ctx : Context) (ts : List Tier) :
    (operators fuel ctx ts).Carries g 1 0 (Expr.relined g.lines) (operators fuel' ctx ts)
  operatorsAfter (ctx : Context) (tier : Tier) (ts : List Tier) (left : Expr) :
    (operatorsAfter fuel ctx tier ts left).Carries g 1 0 (Expr.relined g.lines)
      (operatorsAfter fuel' ctx tier ts (left.relined g.lines))
  unary (ctx : Context) : (unary fuel ctx).Carries g 1 0 (Expr.relined g.lines) (unary fuel' ctx)
  callsAfter (ctx : Context) (callee : Expr) :
    (callsAfter fuel ctx callee).Carries g 1 0 (Expr.relined g.lines)
      (callsAfter fuel' ctx (callee.relined g.lines))
  argumentList (ctx : Context) (taken : Nat) :
    (argumentList fuel ctx taken).Carries g 1 0 (argumentsRelined g.lines)
      (argumentList fuel' ctx taken)
  primary (ctx : Context) :
    (primary fuel ctx).Carries g 1 0 (Expr.relined g.lines) (primary fuel' ctx)

namespace ExpressionsCarry

variable {g : Graft} {fuel fuel' : Nat} (ctx : Context)

theorem zero : ExpressionsCarry g 0 fuel' where
  expression _ := .fuelSpent
  operators _ _ := .fuelSpent
  operatorsAfter _ _ _ _ := .fuelSpent
  unary _ := .fuelSpent
  callsAfter _ _ := .fuelSpent
  argumentList _ _ := .fuelSpent
  primary _ := .fuelSpent

theorem expression_succ (ih : ExpressionsCarry g fuel fuel') :
    (Grammar.expression (fuel + 1) ctx).Carries g 1 0 (Expr.relined g.lines)
      (Grammar.expression (fuel' + 1) ctx) := by
  rw [Grammar.expression, Grammar.expression]
  refine .andThen (ih.operators ctx _) fun target => .andThen (.accept? _) fun sign? => ?_
  cases sign? with
  | none => exact .pure rfl
  | some sign =>
    refine .andThen (ih.expression ctx) fun value => ?_
    cases target <;> first | exact .pure rfl | exact .fault _ _

theorem operators_succ (ih : ExpressionsCarry g fuel fuel') (ts : List Tier) :
    (Grammar.operators (fuel + 1) ctx ts).Carries g 1 0 (Expr.relined g.lines)
      (Grammar.operators (fuel' + 1) ctx ts) := by
  cases ts with
  | nil =>
    rw [Grammar.operators, Grammar.operators]
    exact ih.unary ctx
  | cons tier tighter =>
    rw [Grammar.operators, Grammar.operators]
    exact .andThen (ih.operators ctx tighter) fun left => ih.operatorsAfter ctx tier tighter left

theorem operatorsAfter_succ (ih : ExpressionsCarry g fuel fuel') (tier : Tier) (ts : List Tier)
    (left : Expr) : (Grammar.operatorsAfter (fuel + 1) ctx tier ts left).Carries g 1 0
      (Expr.relined g.lines)
      (Grammar.operatorsAfter (fuel' + 1) ctx tier ts (left.relined g.lines)) := by
  rw [Grammar.operatorsAfter, Grammar.operatorsAfter]
  refine .andThen (.acceptSome? _) fun op? => ?_
  cases op? with
  | none => exact .pure rfl
  | some op =>
    refine .andThen (ih.operators ctx ts) fun right => ?_
    have hafter := ih.operatorsAfter ctx tier ts (.binary left op.1 right left.line)
    rw [Expr.relined, ← Expr.relined_line g.lines left] at hafter
    exact hafter

theorem unary_succ (ih : ExpressionsCarry g fuel fuel') :
    (Grammar.unary (fuel + 1) ctx).Carries g 1 0 (Expr.relined g.lines)
      (Grammar.unary (fuel' + 1) ctx) := by
  rw [Grammar.unary, Grammar.unary]
  refine .andThen (.acceptSome? _) fun op? => ?_
  cases op? with
  | none => exact .andThen (ih.primary ctx) fun callee => ih.callsAfter ctx callee
  | some op => exact .andThen (ih.unary ctx) fun right => .pure rfl

theorem callsAfter_succ (ih : ExpressionsCarry g fuel fuel') (callee : Expr) :
    (Grammar.callsAfter (fuel + 1) ctx callee).Carries g 1 0 (Expr.relined g.lines)
      (Grammar.callsAfter (fuel' + 1) ctx (callee.relined g.lines)) := by
  have hcall (arguments : List Expr) := ih.callsAfter ctx (.call callee arguments callee.line)
  have hget (name : String) := ih.callsAfter ctx (.get callee name callee.line)
  simp only [Expr.relined, ← Expr.relined_line g.lines callee] at hcall hget
  rw [Grammar.callsAfter, Grammar.callsAfter]
  refine .andThen (.accept? _) fun paren? => ?_
  cases paren? with
  | some paren =>
    refine .andThen (.sees _) fun closed => .ite ?_ ?_
    · exact .andThen (.pure rfl) fun arguments =>
        .andThen (.opened (.expect _ _)) fun _ => hcall arguments
    · exact .andThen (ih.argumentList ctx 0) fun arguments =>
        .andThen (.opened (.expect _ _)) fun _ => hcall arguments
  | none =>
    refine .andThen (.accept? _) fun dot? => ?_
    cases dot? with
    | some dot => exact .andThen (.opened (.expect _ _)) fun name => hget name.lexeme
    | none => exact .pure rfl

theorem argumentList_succ (ih : ExpressionsCarry g fuel fuel') (taken : Nat) :
    (Grammar.argumentList (fuel + 1) ctx taken).Carries g 1 0 (argumentsRelined g.lines)
      (Grammar.argumentList (fuel' + 1) ctx taken) := by
  rw [Grammar.argumentList, Grammar.argumentList]
  refine .optional _ (.andThen (ih.expression ctx) fun argument =>
    .andThen (.accept? _) fun comma? => ?_)
  cases comma? with
  | none => exact .pure rfl
  | some comma => exact .andThen (ih.argumentList ctx _) fun more => .pure rfl

theorem primary_succ (ih : ExpressionsCarry g fuel fuel') :
    (Grammar.primary (fuel + 1) ctx).Carries g 1 0 (Expr.relined g.lines)
      (Grammar.primary (fuel' + 1) ctx) := by
  rw [Grammar.primary, Grammar.primary]
  refine .andThen (.acceptSome? _) fun literal? => ?_
  cases literal? with
  | some literal => exact .pure rfl
  | none =>
  refine .andThen (.accept? _) fun name? => ?_
  cases name? with
  | some name => exact .pure rfl
  | none =>
  refine .andThen (.accept? _) fun this? => ?_
  cases this? with
  | some this => exact .ite (.pure rfl) (.fault _ _)
  | none =>
  refine .andThen (.accept? _) fun paren? => ?_
  cases paren? with
  | some paren =>
    exact .andThen (ih.expression ctx) fun inner =>
      .andThen (.opened (.expect _ _)) fun _ => .pure rfl
  | none => exact .andThen .atEnd fun ended => .ite (.faultHere _) (.faultHere _)

end ExpressionsCarry

theorem expressionsCarry (g : Graft) {fuel fuel' : Nat} (h : fuel ≤ fuel') :
    ExpressionsCarry g fuel fuel' := by
  induction fuel generalizing fuel' with
  | zero => exact .zero
  | succ fuel ih =>
    cases fuel' with
    | zero => exact absurd h (Nat.not_succ_le_zero _)
    | succ fuel' =>
      have ih := ih (Nat.le_of_succ_le_succ h)
      exact {
        expression := fun ctx => ih.expression_succ ctx
        operators := fun ctx => ih.operators_succ ctx
        operatorsAfter := fun ctx => ih.operatorsAfter_succ ctx
        unary := fun ctx => ih.unary_succ ctx
        callsAfter := fun ctx => ih.callsAfter_succ ctx
        argumentList := fun ctx => ih.argumentList_succ ctx
        primary := fun ctx => ih.primary_succ ctx }

section
variable (g : Graft) {fuel fuel' : Nat} (h : fuel ≤ fuel') (ctx : Context) (line : Nat)
include h

theorem expression_carries :
    (expression fuel ctx).Carries g 1 0 (Expr.relined g.lines) (expression fuel' ctx) :=
  (expressionsCarry g h).expression ctx

theorem unlessSees_carries (kind : Kind) : (unlessSees kind (expression fuel ctx)).Carries g 1 0
    (Option.map (Expr.relined g.lines)) (unlessSees kind (expression fuel' ctx)) :=
  .andThen (.sees _) fun _ =>
    .ite (.pure rfl) (.andThen (expression_carries g h ctx) fun _ => .pure rfl)

/-- An expression with the token that closes it. -/
theorem closedExpression_carries {β β' : Type} (kind : Kind) (what : Expected) {f : β → β'}
    {make : Expr → β} {make' : Expr → β'} (hmake : ∀ e, f (make e) = make' (e.relined g.lines)) :
    Rule.Carries g 0 1 f (do
      let value ← expression fuel ctx
      let _ ← expect kind what
      pure (make value)) (do
      let value ← expression fuel' ctx
      let _ ← expect kind what
      pure (make' value)) :=
  .closedBy (expression_carries g h ctx) fun e => .closes (.expect _ _) fun _ => .pure (hmake e)

theorem varDeclaration_carries : (varDeclaration fuel ctx line).Carries g 0 1
    (VarDecl.relined g.lines) (varDeclaration fuel' ctx (g.lines line)) := by
  unfold varDeclaration
  refine .closedBy (.opened (.expect _ _)) fun name => .closedBy (.accept? _) fun sign? => ?_
  cases sign? with
  | none =>
    exact .closedBy (.pure (f := Option.map (Expr.relined g.lines)) rfl) fun init =>
      .closes (.expect _ _) fun _ => .pure rfl
  | some sign =>
    exact .closedBy (expression_carries g h ctx) fun value =>
      .closedBy (.pure (f := Option.map (Expr.relined g.lines)) rfl) fun init =>
        .closes (.expect _ _) fun _ => .pure rfl

omit h in
theorem parameterList_carries (h : fuel ≤ fuel') (taken : Nat) :
    (parameterList fuel taken).Carries g 1 0 id (parameterList fuel' taken) := by
  induction fuel generalizing fuel' taken with
  | zero => exact .fuelSpent
  | succ fuel ih =>
    cases fuel' with
    | zero => exact absurd h (Nat.not_succ_le_zero _)
    | succ fuel' =>
      rw [parameterList, parameterList]
      refine .optional _ (.andThen (.opened (.expect _ _)) fun param =>
        .andThen (.accept? _) fun comma? => ?_)
      cases comma? with
      | none => exact .pure rfl
      | some comma => exact .andThen (ih (Nat.le_of_succ_le_succ h) _) fun more => .pure rfl

theorem forInit_carries :
    (forInit fuel ctx).Carries g 1 0 (ForInit.relined g.lines) (forInit fuel' ctx) := by
  unfold forInit
  refine .andThen (.accept? _) fun semicolon? => ?_
  cases semicolon? with
  | some semicolon => exact .pure rfl
  | none =>
  refine .andThen (.accept? _) fun var? => ?_
  cases var? with
  | some var =>
    exact .andThen (.opened (varDeclaration_carries g h ctx var.line)) fun decl => .pure rfl
  | none => exact .opened (closedExpression_carries g h ctx _ _ fun _ => rfl)

end

/-- The rules for statements at two amounts of fuel. -/
structure StatementsCarry (g : Graft) (fuel fuel' : Nat) : Prop where
  declaration (ctx : Context) :
    (declaration fuel ctx).Carries g 0 1 (Stmt.relined g.lines) (declaration fuel' ctx)
  classDeclaration (ctx : Context) (line : Nat) :
    (classDeclaration fuel ctx line).Carries g 0 1 (Stmt.relined g.lines)
      (classDeclaration fuel' ctx (g.lines line))
  methodList (ctx : Context) :
    (methodList fuel ctx).Carries g 1 0 (methodsRelined g.lines) (methodList fuel' ctx)
  function (ctx : Context) (start : Option Nat) :
    (function fuel ctx start).Carries g 0 1 (functionRelined g.lines)
      (function fuel' ctx (start.map g.lines))
  statementList (ctx : Context) :
    (statementList fuel ctx).Carries g 1 0 (statementsRelined g.lines) (statementList fuel' ctx)
  statement (ctx : Context) :
    (statement fuel ctx).Carries g 0 1 (Stmt.relined g.lines) (statement fuel' ctx)
  forStatement (ctx : Context) (line : Nat) :
    (forStatement fuel ctx line).Carries g 0 1 (Stmt.relined g.lines)
      (forStatement fuel' ctx (g.lines line))
  whileStatement (ctx : Context) (line : Nat) :
    (whileStatement fuel ctx line).Carries g 0 1 (Stmt.relined g.lines)
      (whileStatement fuel' ctx (g.lines line))
  ifStatement (ctx : Context) (line : Nat) :
    (ifStatement fuel ctx line).Carries g 0 1 (Stmt.relined g.lines)
      (ifStatement fuel' ctx (g.lines line))

namespace StatementsCarry

variable {g : Graft} {fuel fuel' : Nat} (ctx : Context)

theorem zero : StatementsCarry g 0 fuel' where
  declaration _ := .fuelSpent
  classDeclaration _ _ := .fuelSpent
  methodList _ := .fuelSpent
  function _ _ := .fuelSpent
  statementList _ := .fuelSpent
  statement _ := .fuelSpent
  forStatement _ _ := .fuelSpent
  whileStatement _ _ := .fuelSpent
  ifStatement _ _ := .fuelSpent

theorem declaration_succ (ih : StatementsCarry g fuel fuel') (h : fuel ≤ fuel') :
    (Grammar.declaration (fuel + 1) ctx).Carries g 0 1 (Stmt.relined g.lines)
      (Grammar.declaration (fuel' + 1) ctx) := by
  rw [Grammar.declaration, Grammar.declaration]
  refine .closedBy (.accept? _) fun class? => ?_
  cases class? with
  | some keyword => exact ih.classDeclaration _ _
  | none =>
  refine .closedBy (.accept? _) fun fun? => ?_
  cases fun? with
  | some keyword => exact .closes (ih.function ctx (some keyword.line)) fun decl => .pure rfl
  | none =>
  refine .closedBy (.accept? _) fun var? => ?_
  cases var? with
  | some keyword => exact .closes (varDeclaration_carries g h ctx _) fun decl => .pure rfl
  | none => exact ih.statement ctx

theorem classDeclaration_succ (ih : StatementsCarry g fuel fuel') (line : Nat) :
    (Grammar.classDeclaration (fuel + 1) ctx line).Carries g 0 1 (Stmt.relined g.lines)
      (Grammar.classDeclaration (fuel' + 1) ctx (g.lines line)) := by
  rw [Grammar.classDeclaration, Grammar.classDeclaration]
  exact .closedBy (.opened (.expect _ _)) fun name => .closedBy (.opened (.expect _ _)) fun _ =>
    .closedBy (ih.methodList ctx) fun methods => .closes (.expect _ _) fun _ => .pure rfl

theorem methodList_succ (ih : StatementsCarry g fuel fuel') :
    (Grammar.methodList (fuel + 1) ctx).Carries g 1 0 (methodsRelined g.lines)
      (Grammar.methodList (fuel' + 1) ctx) := by
  have hrest (method : FunDecl Stmt) : Rule.Carries g 1 0 (methodsRelined g.lines) (do
      let more ← Grammar.methodList fuel ctx
      pure (method :: more)) (do
      let more ← Grammar.methodList fuel' ctx
      pure (functionRelined g.lines method :: more)) :=
    .andThen (ih.methodList ctx) fun more => .pure rfl
  rw [Grammar.methodList, Grammar.methodList]
  refine .andThen (.sees _) fun _ => .ite (.pure rfl) (.andThen .atEnd fun _ =>
    .ite (.faultHere _) (.andThen (.accept? _) fun fun? => ?_))
  cases fun? with
  | some keyword => exact .andThen (.opened (ih.function ctx (some keyword.line))) hrest
  | none =>
    exact .andThen (.sees _) fun _ => .ite (.andThen (.opened (ih.function ctx none)) hrest)
      (.andThen (.faultHere _) hrest)

theorem function_succ (ih : StatementsCarry g fuel fuel') (h : fuel ≤ fuel')
    (start : Option Nat) :
    (Grammar.function (fuel + 1) ctx start).Carries g 0 1 (functionRelined g.lines)
      (Grammar.function (fuel' + 1) ctx (start.map g.lines)) := by
  have hstart (name : Token) : (start.map g.lines).getD (name.relined g.lines).line =
      g.lines (start.getD name.line) := by
    cases start <;> rfl
  have hrest (name : Token) (params : List String) :
      Rule.Carries g 0 1 (functionRelined g.lines) (do
        let _ ← Grammar.expect .rightParen .parametersEnd
        let _ ← Grammar.expect .leftBrace .functionBodyStart
        let body ← Grammar.statementList fuel ctx.enterFunction
        let _ ← Grammar.expect .rightBrace .blockEnd
        pure (⟨name.lexeme, params, body, start.getD name.line, 0⟩ : FunDecl Stmt)) (do
        let _ ← Grammar.expect .rightParen .parametersEnd
        let _ ← Grammar.expect .leftBrace .functionBodyStart
        let body ← Grammar.statementList fuel' ctx.enterFunction
        let _ ← Grammar.expect .rightBrace .blockEnd
        pure (⟨name.lexeme, params, body,
          (start.map g.lines).getD (name.relined g.lines).line, 0⟩ : FunDecl Stmt)) := by
    rw [hstart]
    exact .closedBy (.opened (.expect _ _)) fun _ => .closedBy (.opened (.expect _ _)) fun _ =>
      .closedBy (ih.statementList _) fun body => .closes (.expect _ _) fun _ => .pure rfl
  rw [Grammar.function, Grammar.function]
  refine .closedBy (.opened (.expect _ _)) fun name => .closedBy (.opened (.expect _ _)) fun _ =>
    .closedBy (.sees _) fun _ => ?_
  exact .ite (.closedBy (.pure (f := id) rfl) (hrest name))
    (.closedBy (parameterList_carries g h 0) (hrest name))

theorem statementList_succ (ih : StatementsCarry g fuel fuel') :
    (Grammar.statementList (fuel + 1) ctx).Carries g 1 0 (statementsRelined g.lines)
      (Grammar.statementList (fuel' + 1) ctx) := by
  rw [Grammar.statementList, Grammar.statementList]
  refine .andThen (.sees _) fun _ => .ite (.pure rfl) (.andThen .atEnd fun _ =>
    .ite (.pure rfl) ?_)
  exact .andThen (.opened (ih.declaration ctx)) fun s =>
    .andThen (ih.statementList ctx) fun more => .pure rfl

theorem statement_succ (ih : StatementsCarry g fuel fuel') (h : fuel ≤ fuel') :
    (Grammar.statement (fuel + 1) ctx).Carries g 0 1 (Stmt.relined g.lines)
      (Grammar.statement (fuel' + 1) ctx) := by
  rw [Grammar.statement, Grammar.statement]
  refine .closedBy (.acceptSome? _) fun opening? => ?_
  cases opening? with
  | none =>
    exact closedExpression_carries g h ctx _ _ fun e => by rw [Expr.relined_line]; rfl
  | some found =>
    rcases found with ⟨opening, t⟩
    cases opening with
    | forLoop => exact ih.forStatement _ _
    | ifElse => exact ih.ifStatement _ _
    | whileLoop => exact ih.whileStatement _ _
    | returns =>
      exact .ite (.fault _ _) (.closedBy (unlessSees_carries g h ctx _) fun value =>
        .closes (.expect _ _) fun _ => .pure rfl)
    | exit exit close => exact .ite (.fault _ _) (.closes (.expect _ _) fun _ => .pure rfl)
    | block =>
      exact .closedBy (ih.statementList ctx) fun statements =>
        .closes (.expect _ _) fun _ => .pure rfl
    | print => exact closedExpression_carries g h ctx _ _ fun _ => rfl

theorem forStatement_succ (ih : StatementsCarry g fuel fuel') (h : fuel ≤ fuel') (line : Nat) :
    (Grammar.forStatement (fuel + 1) ctx line).Carries g 0 1 (Stmt.relined g.lines)
      (Grammar.forStatement (fuel' + 1) ctx (g.lines line)) := by
  rw [Grammar.forStatement, Grammar.forStatement]
  exact .closedBy (.opened (.expect _ _)) fun _ => .closedBy (forInit_carries g h ctx) fun init =>
    .closedBy (unlessSees_carries g h ctx _) fun condition =>
      .closedBy (.opened (.expect _ _)) fun _ =>
        .closedBy (unlessSees_carries g h ctx _) fun increment =>
          .closedBy (.opened (.expect _ _)) fun _ =>
            .closes (ih.statement ctx) fun body => .pure rfl

theorem whileStatement_succ (ih : StatementsCarry g fuel fuel') (h : fuel ≤ fuel') (line : Nat) :
    (Grammar.whileStatement (fuel + 1) ctx line).Carries g 0 1 (Stmt.relined g.lines)
      (Grammar.whileStatement (fuel' + 1) ctx (g.lines line)) := by
  rw [Grammar.whileStatement, Grammar.whileStatement]
  exact .closedBy (.opened (.expect _ _)) fun _ =>
    .closedBy (expression_carries g h ctx) fun condition =>
      .closedBy (.opened (.expect _ _)) fun _ => .closes (ih.statement ctx) fun body => .pure rfl

/-- The one rule that asks for a token behind its last one. -/
theorem ifStatement_succ (ih : StatementsCarry g fuel fuel') (h : fuel ≤ fuel') (line : Nat) :
    (Grammar.ifStatement (fuel + 1) ctx line).Carries g 0 1 (Stmt.relined g.lines)
      (Grammar.ifStatement (fuel' + 1) ctx (g.lines line)) := by
  rw [Grammar.ifStatement, Grammar.ifStatement]
  refine .closedBy (.opened (.expect _ _)) fun _ =>
    .closedBy (expression_carries g h ctx) fun condition =>
      .closedBy (.opened (.expect _ _)) fun _ => .closes (ih.statement ctx) fun thenBranch => ?_
  refine .weaken (.bind .acceptElse (fun else? => (?_ : Rule.Carries g 0 0 _ _ _)) (Nat.zero_le _))
    (Nat.le_refl _) (Nat.zero_le _)
  cases else? with
  | none => exact .pure rfl
  | some keyword =>
    exact .weaken (.closes (ih.statement ctx) fun elseBranch => .pure rfl) (Nat.le_refl _)
      (Nat.zero_le _)

end StatementsCarry

theorem statementsCarry (g : Graft) {fuel fuel' : Nat} (h : fuel ≤ fuel') :
    StatementsCarry g fuel fuel' := by
  induction fuel generalizing fuel' with
  | zero => exact .zero
  | succ fuel ih =>
    cases fuel' with
    | zero => exact absurd h (Nat.not_succ_le_zero _)
    | succ fuel' =>
      have h := Nat.le_of_succ_le_succ h
      have ih := ih h
      exact {
        declaration := fun ctx => ih.declaration_succ ctx h
        classDeclaration := fun ctx => ih.classDeclaration_succ ctx
        methodList := fun ctx => ih.methodList_succ ctx
        function := fun ctx => ih.function_succ ctx h
        statementList := fun ctx => ih.statementList_succ ctx
        statement := fun ctx => ih.statement_succ ctx h
        forStatement := fun ctx => ih.forStatement_succ ctx h
        whileStatement := fun ctx => ih.whileStatement_succ ctx h
        ifStatement := fun ctx => ih.ifStatement_succ ctx h }

end Lox.Grammar
