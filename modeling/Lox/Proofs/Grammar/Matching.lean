import Lox.Proofs.Grammar.Reader

/-! The readings in a monad follow the rules of the grammar. -/
namespace Lox
namespace Grammar

theorem Rule.bind_assoc {α β γ : Type} (x : Rule α) (f : α → Rule β) (g : β → Rule γ) :
    x >>= f >>= g = x >>= fun a => f a >>= g := by
  funext c
  simp only [Rule.bind_apply]
  cases x c <;> rfl

/-! Lists. The length of a list is checked in front of each entry: with the comma behind the entries
before. -/

def lengthCheck (what : Capped) (taken : Nat) : Rule Unit :=
  if taken = Capped.limit then reportHere (.tooMany what) else pure ()

/-- Takes the comma behind so many entries of a list and checks whether another one is too much. -/
def separator (what : Capped) (entries : Nat) : Rule Bool := do
  match ← accept? .comma with
  | none => pure false
  | some _ =>
    lengthCheck what entries
    pure true

theorem separator_bind {β : Type} (what : Capped) (entries : Nat) (k : Bool → Rule β) :
    separator what entries >>= k = accept? .comma >>= fun comma? =>
      match comma? with
      | none => k false
      | some _ => lengthCheck what entries >>= fun _ => k true := by
  rw [separator, Rule.bind_assoc]
  refine congrArg (accept? .comma >>= ·) (funext fun comma? => ?_)
  cases comma? with
  | none => rfl
  | some comma => exact Rule.bind_assoc ..

/-- The arguments behind the first `taken` ones, where the next one has been checked for. -/
def argumentsFrom : Nat → Context → Nat → Rule (List Expr)
  | 0, _, _ => fuelSpent
  | fuel + 1, ctx, taken => do
    let argument ← expression fuel ctx
    if ← separator .arguments (taken + 1) then
      let more ← argumentsFrom fuel ctx (taken + 1)
      pure (argument :: more)
    else pure [argument]

theorem argumentList_eq (fuel : Nat) (ctx : Context) (taken : Nat) :
    argumentList fuel ctx taken =
      lengthCheck .arguments taken >>= fun _ => argumentsFrom fuel ctx taken := by
  induction fuel generalizing taken with
  | zero =>
    funext c
    simp only [argumentList, argumentsFrom, lengthCheck]
    split <;> rfl
  | succ fuel ih =>
    rw [argumentList, optional_bind, argumentsFrom]
    refine congrArg (lengthCheck .arguments taken >>= ·) (funext fun _ => ?_)
    refine congrArg (expression fuel ctx >>= ·) (funext fun argument => ?_)
    rw [separator_bind]
    refine congrArg (accept? .comma >>= ·) (funext fun comma? => ?_)
    cases comma? with
    | none => rfl
    | some comma =>
      rw [ih]
      exact Rule.bind_assoc ..

/-- The parameters behind the first `taken` ones, where the next one has been checked for. -/
def parametersFrom : Nat → Nat → Rule (List String)
  | 0, _ => fuelSpent
  | fuel + 1, taken => do
    let param ← expect .identifier .parameterName
    if ← separator .parameters (taken + 1) then
      let more ← parametersFrom fuel (taken + 1)
      pure (param.lexeme :: more)
    else pure [param.lexeme]

theorem parameterList_eq (fuel taken : Nat) : parameterList fuel taken =
    lengthCheck .parameters taken >>= fun _ => parametersFrom fuel taken := by
  induction fuel generalizing taken with
  | zero =>
    funext c
    simp only [parameterList, parametersFrom, lengthCheck]
    split <;> rfl
  | succ fuel ih =>
    rw [parameterList, optional_bind, parametersFrom]
    refine congrArg (lengthCheck .parameters taken >>= ·) (funext fun _ => ?_)
    refine congrArg (expect .identifier .parameterName >>= ·) (funext fun param => ?_)
    rw [separator_bind]
    refine congrArg (accept? .comma >>= ·) (funext fun comma? => ?_)
    cases comma? with
    | none => rfl
    | some comma =>
      rw [ih]
      exact Rule.bind_assoc ..

/-- The rule does not take a mark of the end. -/
def Rule.KeepsEnd {α : Type} (r : Rule α) : Prop :=
  ∀ (last : Token) (behind : List Token) (reports : List Diagnostic) (a : α) (next : Cursor),
    last.kind = .eof → r ⟨last :: behind, reports⟩ = .done a next → next.rest = last :: behind

namespace Rule.KeepsEnd

variable {α : Type}

theorem accept? (kind : Kind) : (Grammar.accept? kind).KeepsEnd := by
  intro last behind reports a next hl h
  simp only [Grammar.accept?, hl, bne_self_eq_false, Bool.false_and, Bool.false_eq_true,
    if_false] at h
  cases h
  rfl

theorem acceptSome? {f : Kind → Option α} (hf : f .eof = none) :
    (Grammar.acceptSome? f).KeepsEnd := by
  intro last behind reports a next hl h
  simp only [Grammar.acceptSome?, hl, hf] at h
  cases h
  rfl

theorem sees (kind : Kind) : (Grammar.sees kind).KeepsEnd := by
  rintro last behind reports a next - ⟨⟩
  rfl

theorem atEnd : Grammar.atEnd.KeepsEnd := by
  rintro last behind reports a next - ⟨⟩
  rfl

theorem fault (line : Nat) (f : GrammarFault) : (Grammar.fault line f : Rule α).KeepsEnd := nofun

theorem faultHere (f : GrammarFault) : (Grammar.faultHere f : Rule α).KeepsEnd := nofun

end Rule.KeepsEnd

namespace Reader

variable {M : Type → Type} [Monad M]

/-- A relation between the readings in a monad and the rules that is closed under the ways in which
the grammar puts them together. Of a rule without fuel nothing is asked. -/
structure Matches (p : Reader M) (R : ⦃α : Type⦄ → M α → Rule α → Prop) : Prop where
  fuelSpent {α : Type} (x : M α) : R x Grammar.fuelSpent
  pure {α : Type} (a : α) : R (Pure.pure a) (Pure.pure a)
  look {α : Type} {r : Rule α} (h : Look r) : r.KeepsEnd → R (p.look r h) r
  separator (what : Capped) (entries : Nat) :
    R (p.separator what entries) (Grammar.separator what entries)
  bind {α β : Type} {x : M α} {r : Rule α} {f : α → M β} {k : α → Rule β} :
    R x r → (∀ a, R (f a) (k a)) → R (x >>= f) (r >>= k)

/-- The readings of expressions match the rules, if they have as much fuel or more. -/
structure ExpressionsMatch (p : Reader M) (R : ⦃α : Type⦄ → M α → Rule α → Prop)
    (fuel fuel' : Nat) : Prop where
  expression (ctx : Context) : R (p.expression fuel' ctx) (Grammar.expression fuel ctx)
  operators (ctx : Context) {ts : List Tier} : (∀ tier ∈ ts, tier .eof = none) →
    R (p.operators fuel' ctx ts) (Grammar.operators fuel ctx ts)
  operatorsAfter (ctx : Context) {tier : Tier} {ts : List Tier} (left : Expr) :
    tier .eof = none → (∀ tier ∈ ts, tier .eof = none) →
    R (p.operatorsAfter fuel' ctx tier ts left) (Grammar.operatorsAfter fuel ctx tier ts left)
  unary (ctx : Context) : R (p.unary fuel' ctx) (Grammar.unary fuel ctx)
  callsAfter (ctx : Context) (callee : Expr) :
    R (p.callsAfter fuel' ctx callee) (Grammar.callsAfter fuel ctx callee)
  argumentList (ctx : Context) (taken : Nat) :
    R (p.argumentList fuel' ctx taken) (argumentsFrom fuel ctx taken)
  primary (ctx : Context) : R (p.primary fuel' ctx) (Grammar.primary fuel ctx)

namespace Matches

variable {p : Reader M} {R : ⦃α : Type⦄ → M α → Rule α → Prop} {fuel fuel' : Nat}
  (ctx : Context)

theorem accept? (h : p.Matches R) (kind : Kind) : R (p.accept? kind) (Grammar.accept? kind) :=
  h.look _ (.accept? kind)

theorem acceptSome? (h : p.Matches R) {α : Type} {f : Kind → Option α} (hf : f .eof = none) :
    R (p.acceptSome? f) (Grammar.acceptSome? f) :=
  h.look _ (.acceptSome? hf)

theorem sees (h : p.Matches R) (kind : Kind) : R (p.sees kind) (Grammar.sees kind) :=
  h.look _ (.sees kind)

theorem atEnd (h : p.Matches R) : R p.atEnd Grammar.atEnd := h.look _ .atEnd

theorem fault (h : p.Matches R) {α : Type} {line : Nat} {f : GrammarFault}
    {hf : Look (Grammar.fault line f : Rule α)} : R (p.look _ hf) (Grammar.fault line f) :=
  h.look hf (.fault line f)

theorem faultHere (h : p.Matches R) {α : Type} {f : GrammarFault}
    {hf : Look (Grammar.faultHere f : Rule α)} : R (p.look _ hf) (Grammar.faultHere f) :=
  h.look hf (.faultHere f)

theorem expect (h : p.Matches R) (kind : Kind) (what : Expected) :
    R (p.expect kind what) (Grammar.expect kind what) :=
  h.bind (h.accept? _) fun t? => by
    cases t? with
    | none => exact h.faultHere
    | some t => exact h.pure t

theorem ite (_ : p.Matches R) {α : Type} {c : Prop} [Decidable c] {x y : M α} {r s : Rule α}
    (hx : R x r) (hy : R y s) : R (if c then x else y) (if c then r else s) := by
  split
  · exact hx
  · exact hy

theorem expression_succ (h : p.Matches R) (ih : ExpressionsMatch p R fuel fuel') :
    R (p.expression (fuel' + 1) ctx) (Grammar.expression (fuel + 1) ctx) := by
  rw [Reader.expression, Grammar.expression]
  refine h.bind (ih.operators ctx (by decide)) fun target => h.bind (h.accept? _) fun sign? => ?_
  cases sign? with
  | none => exact h.pure _
  | some sign =>
    refine h.bind (ih.expression ctx) fun value => ?_
    cases target <;> first | exact h.pure _ | exact h.fault

theorem operators_succ (h : p.Matches R) (ih : ExpressionsMatch p R fuel fuel')
    {ts : List Tier} (hts : ∀ tier ∈ ts, tier .eof = none) :
    R (p.operators (fuel' + 1) ctx ts) (Grammar.operators (fuel + 1) ctx ts) := by
  cases ts with
  | nil =>
    rw [Reader.operators, Grammar.operators]
    exact ih.unary ctx
  | cons tier tighter =>
    rw [Reader.operators, Grammar.operators]
    obtain ⟨htier, htighter⟩ := List.forall_mem_cons.1 hts
    exact h.bind (ih.operators ctx htighter) fun left =>
      ih.operatorsAfter ctx left htier htighter

theorem operatorsAfter_succ (h : p.Matches R) (ih : ExpressionsMatch p R fuel fuel')
    {tier : Tier} {ts : List Tier} (left : Expr) (htier : tier .eof = none)
    (hts : ∀ tier ∈ ts, tier .eof = none) :
    R (p.operatorsAfter (fuel' + 1) ctx tier ts left)
      (Grammar.operatorsAfter (fuel + 1) ctx tier ts left) := by
  rw [Reader.operatorsAfter, Grammar.operatorsAfter]
  refine h.bind (h.acceptSome? htier) fun op? => ?_
  cases op? with
  | none => exact h.pure _
  | some op =>
    exact h.bind (ih.operators ctx hts) fun right => ih.operatorsAfter ctx _ htier hts

theorem unary_succ (h : p.Matches R) (ih : ExpressionsMatch p R fuel fuel') :
    R (p.unary (fuel' + 1) ctx) (Grammar.unary (fuel + 1) ctx) := by
  rw [Reader.unary, Grammar.unary]
  refine h.bind (h.acceptSome? rfl) fun op? => ?_
  cases op? with
  | none => exact h.bind (ih.primary ctx) fun callee => ih.callsAfter ctx callee
  | some op => exact h.bind (ih.unary ctx) fun right => h.pure _

theorem callsAfter_succ (h : p.Matches R) (ih : ExpressionsMatch p R fuel fuel')
    (callee : Expr) :
    R (p.callsAfter (fuel' + 1) ctx callee) (Grammar.callsAfter (fuel + 1) ctx callee) := by
  have hlist : Grammar.argumentList fuel ctx 0 = argumentsFrom fuel ctx 0 :=
    argumentList_eq fuel ctx 0
  rw [Reader.callsAfter, Grammar.callsAfter, hlist]
  refine h.bind (h.accept? _) fun paren? => ?_
  cases paren? with
  | some paren =>
    refine h.bind (h.sees _) fun closed => h.ite ?_ ?_
    · exact h.bind (h.pure _) fun arguments =>
        h.bind (h.expect _ _) fun _ => ih.callsAfter ctx _
    · exact h.bind (ih.argumentList ctx 0) fun arguments =>
        h.bind (h.expect _ _) fun _ => ih.callsAfter ctx _
  | none =>
    refine h.bind (h.accept? _) fun dot? => ?_
    cases dot? with
    | some dot => exact h.bind (h.expect _ _) fun name => ih.callsAfter ctx _
    | none => exact h.pure _

theorem argumentList_succ (h : p.Matches R) (ih : ExpressionsMatch p R fuel fuel')
    (taken : Nat) :
    R (p.argumentList (fuel' + 1) ctx taken) (argumentsFrom (fuel + 1) ctx taken) := by
  rw [Reader.argumentList, argumentsFrom]
  refine h.bind (ih.expression ctx) fun argument => h.bind (h.separator _ _) fun more? => ?_
  exact h.ite (h.bind (ih.argumentList ctx _) fun more => h.pure _) (h.pure _)

theorem primary_succ (h : p.Matches R) (ih : ExpressionsMatch p R fuel fuel') :
    R (p.primary (fuel' + 1) ctx) (Grammar.primary (fuel + 1) ctx) := by
  rw [Reader.primary, Grammar.primary]
  refine h.bind (h.acceptSome? rfl) fun literal? => ?_
  cases literal? with
  | some literal => exact h.pure _
  | none =>
  refine h.bind (h.accept? _) fun name? => ?_
  cases name? with
  | some name => exact h.pure _
  | none =>
  refine h.bind (h.accept? _) fun this? => ?_
  cases this? with
  | some this => exact h.ite (h.pure _) h.fault
  | none =>
  refine h.bind (h.accept? _) fun paren? => ?_
  cases paren? with
  | some paren =>
    exact h.bind (ih.expression ctx) fun inner => h.bind (h.expect _ _) fun _ => h.pure _
  | none => exact h.bind h.atEnd fun ended => h.ite h.faultHere h.faultHere

theorem expressionsMatch (h : p.Matches R) {fuel fuel' : Nat} (hf : fuel ≤ fuel') :
    ExpressionsMatch p R fuel fuel' := by
  induction fuel generalizing fuel' with
  | zero =>
    exact {
      expression := fun _ => h.fuelSpent _
      operators := fun _ _ _ => h.fuelSpent _
      operatorsAfter := fun _ _ _ _ _ _ => h.fuelSpent _
      unary := fun _ => h.fuelSpent _
      callsAfter := fun _ _ => h.fuelSpent _
      argumentList := fun _ _ => h.fuelSpent _
      primary := fun _ => h.fuelSpent _ }
  | succ fuel ih =>
    cases fuel' with
    | zero => exact absurd hf (Nat.not_succ_le_zero _)
    | succ fuel' =>
      have ih := ih (Nat.le_of_succ_le_succ hf)
      exact {
        expression := fun ctx => h.expression_succ ctx ih
        operators := fun ctx => h.operators_succ ctx ih
        operatorsAfter := fun ctx => h.operatorsAfter_succ ctx ih
        unary := fun ctx => h.unary_succ ctx ih
        callsAfter := fun ctx => h.callsAfter_succ ctx ih
        argumentList := fun ctx => h.argumentList_succ ctx ih
        primary := fun ctx => h.primary_succ ctx ih }

section
variable (h : p.Matches R) (hf : fuel ≤ fuel')
include h hf

theorem expression : R (p.expression fuel' ctx) (Grammar.expression fuel ctx) :=
  (h.expressionsMatch hf).expression ctx

theorem unlessSees (kind : Kind) : R (p.unlessSees kind (p.expression fuel' ctx))
    (Grammar.unlessSees kind (Grammar.expression fuel ctx)) :=
  h.bind (h.sees _) fun _ =>
    h.ite (h.pure _) (h.bind (h.expression ctx hf) fun _ => h.pure _)

theorem closedExpression {α : Type} (kind : Kind) (what : Expected) (f : Expr → α) :
    R (p.closedExpression fuel' ctx kind what f) (do
      let value ← Grammar.expression fuel ctx
      let _ ← Grammar.expect kind what
      Pure.pure (f value)) :=
  h.bind (h.expression ctx hf) fun _ => h.bind (h.expect _ _) fun _ => h.pure _

theorem varDeclaration (line : Nat) :
    R (p.varDeclaration fuel' ctx line) (Grammar.varDeclaration fuel ctx line) := by
  refine h.bind (h.expect _ _) fun name => h.bind (h.accept? _) fun sign? => ?_
  cases sign? with
  | none => exact h.bind (h.pure _) fun init => h.bind (h.expect _ _) fun _ => h.pure _
  | some sign =>
    exact h.bind (h.expression ctx hf) fun value => h.bind (h.pure _) fun init =>
      h.bind (h.expect _ _) fun _ => h.pure _

theorem forInit : R (p.forInit fuel' ctx) (Grammar.forInit fuel ctx) := by
  refine h.bind (h.accept? _) fun semicolon? => ?_
  cases semicolon? with
  | some semicolon => exact h.pure _
  | none =>
  refine h.bind (h.accept? _) fun var? => ?_
  cases var? with
  | some var => exact h.bind (h.varDeclaration ctx hf _) fun decl => h.pure _
  | none => exact h.closedExpression ctx hf _ _ _

theorem returnStatement (line : Nat) :
    R (p.returnStatement fuel' ctx line) (Grammar.returnStatement fuel ctx line) :=
  h.ite h.fault
    (h.bind (h.unlessSees ctx hf _) fun _ => h.bind (h.expect _ _) fun _ => h.pure _)

end

theorem loopExit (h : p.Matches R) (exit : LoopExit) (close : Expected) (line : Nat) :
    R (p.loopExit ctx exit close line) (Grammar.loopExit ctx exit close line) :=
  h.ite h.fault (h.bind (h.expect _ _) fun _ => h.pure _)

theorem parameterList (h : p.Matches R) {fuel fuel' : Nat} (hf : fuel ≤ fuel') (taken : Nat) :
    R (p.parameterList fuel' taken) (parametersFrom fuel taken) := by
  induction fuel generalizing fuel' taken with
  | zero => exact h.fuelSpent _
  | succ fuel ih =>
    cases fuel' with
    | zero => exact absurd hf (Nat.not_succ_le_zero _)
    | succ fuel' =>
      rw [Reader.parameterList, parametersFrom]
      refine h.bind (h.expect _ _) fun param => h.bind (h.separator _ _) fun more? => ?_
      exact h.ite (h.bind (ih (Nat.le_of_succ_le_succ hf) _) fun more => h.pure _) (h.pure _)

end Matches

/-- The readings of statements match the rules, if they have as much fuel or more. -/
structure StatementsMatch (p : Reader M) (R : ⦃α : Type⦄ → M α → Rule α → Prop)
    (fuel fuel' : Nat) : Prop where
  declaration (ctx : Context) : R (p.declaration fuel' ctx) (Grammar.declaration fuel ctx)
  classDeclaration (ctx : Context) (line : Nat) :
    R (p.classDeclaration fuel' ctx line) (Grammar.classDeclaration fuel ctx line)
  methodList (ctx : Context) : R (p.methodList fuel' ctx) (Grammar.methodList fuel ctx)
  function (ctx : Context) (start : Option Nat) :
    R (p.function fuel' ctx start) (Grammar.function fuel ctx start)
  statementList (ctx : Context) : R (p.statementList fuel' ctx) (Grammar.statementList fuel ctx)
  statement (ctx : Context) : R (p.statement fuel' ctx) (Grammar.statement fuel ctx)
  forStatement (ctx : Context) (line : Nat) :
    R (p.forStatement fuel' ctx line) (Grammar.forStatement fuel ctx line)
  whileStatement (ctx : Context) (line : Nat) :
    R (p.whileStatement fuel' ctx line) (Grammar.whileStatement fuel ctx line)
  ifStatement (ctx : Context) (line : Nat) :
    R (p.ifStatement fuel' ctx line) (Grammar.ifStatement fuel ctx line)

namespace Matches

variable {p : Reader M} {R : ⦃α : Type⦄ → M α → Rule α → Prop} {fuel fuel' : Nat}
  (ctx : Context) (h : p.Matches R) (hf : fuel ≤ fuel') (ih : StatementsMatch p R fuel fuel')
include h ih

include hf in
theorem declaration_succ :
    R (p.declaration (fuel' + 1) ctx) (Grammar.declaration (fuel + 1) ctx) := by
  rw [Reader.declaration, Grammar.declaration]
  refine h.bind (h.accept? _) fun class? => ?_
  cases class? with
  | some keyword => exact ih.classDeclaration _ _
  | none =>
  refine h.bind (h.accept? _) fun fun? => ?_
  cases fun? with
  | some keyword => exact h.bind (ih.function ctx _) fun decl => h.pure _
  | none =>
  refine h.bind (h.accept? _) fun var? => ?_
  cases var? with
  | some keyword => exact h.bind (h.varDeclaration ctx hf _) fun decl => h.pure _
  | none => exact ih.statement ctx

theorem classDeclaration_succ (line : Nat) :
    R (p.classDeclaration (fuel' + 1) ctx line)
      (Grammar.classDeclaration (fuel + 1) ctx line) := by
  rw [Reader.classDeclaration, Grammar.classDeclaration]
  exact h.bind (h.expect _ _) fun name => h.bind (h.expect _ _) fun _ =>
    h.bind (ih.methodList ctx) fun methods => h.bind (h.expect _ _) fun _ => h.pure _

theorem methodList_succ :
    R (p.methodList (fuel' + 1) ctx) (Grammar.methodList (fuel + 1) ctx) := by
  have hrest (method : FunDecl Stmt) : R (do
      let more ← p.methodList fuel' ctx
      Pure.pure (method :: more)) (do
      let more ← Grammar.methodList fuel ctx
      Pure.pure (method :: more)) :=
    h.bind (ih.methodList ctx) fun more => h.pure _
  rw [Reader.methodList, Grammar.methodList]
  refine h.bind (h.sees _) fun _ => h.ite (h.pure _) (h.bind h.atEnd fun _ =>
    h.ite h.faultHere (h.bind (h.accept? _) fun fun? => ?_))
  cases fun? with
  | some keyword => exact h.bind (ih.function ctx _) hrest
  | none =>
    exact h.bind (h.sees _) fun _ =>
      h.ite (h.bind (ih.function ctx _) hrest) (h.bind h.faultHere hrest)

include hf in
theorem function_succ (start : Option Nat) :
    R (p.function (fuel' + 1) ctx start) (Grammar.function (fuel + 1) ctx start) := by
  have hlist : Grammar.parameterList fuel 0 = parametersFrom fuel 0 := parameterList_eq fuel 0
  have hrest (name : Token) (params : List String) : R (do
      let _ ← p.expect .rightParen .parametersEnd
      let _ ← p.expect .leftBrace .functionBodyStart
      let body ← p.statementList fuel' ctx.enterFunction
      let _ ← p.expect .rightBrace .blockEnd
      Pure.pure (⟨name.lexeme, params, body, start.getD name.line, 0⟩ : FunDecl Stmt)) (do
      let _ ← Grammar.expect .rightParen .parametersEnd
      let _ ← Grammar.expect .leftBrace .functionBodyStart
      let body ← Grammar.statementList fuel ctx.enterFunction
      let _ ← Grammar.expect .rightBrace .blockEnd
      Pure.pure (⟨name.lexeme, params, body, start.getD name.line, 0⟩ : FunDecl Stmt)) :=
    h.bind (h.expect _ _) fun _ => h.bind (h.expect _ _) fun _ =>
      h.bind (ih.statementList _) fun body => h.bind (h.expect _ _) fun _ => h.pure _
  rw [Reader.function, Grammar.function, hlist]
  refine h.bind (h.expect _ _) fun name => h.bind (h.expect _ _) fun _ =>
    h.bind (h.sees _) fun _ => ?_
  exact h.ite (h.bind (h.pure _) (hrest name))
    (h.bind (h.parameterList hf 0) (hrest name))

theorem statementList_succ :
    R (p.statementList (fuel' + 1) ctx) (Grammar.statementList (fuel + 1) ctx) := by
  rw [Reader.statementList, Grammar.statementList]
  refine h.bind (h.sees _) fun _ => h.ite (h.pure _) (h.bind h.atEnd fun _ =>
    h.ite (h.pure _) ?_)
  exact h.bind (ih.declaration ctx) fun s => h.bind (ih.statementList ctx) fun more => h.pure _

include hf in
theorem statement_succ :
    R (p.statement (fuel' + 1) ctx) (Grammar.statement (fuel + 1) ctx) := by
  rw [Reader.statement, Grammar.statement]
  refine h.bind (h.acceptSome? rfl) fun opening? => ?_
  cases opening? with
  | none => exact h.closedExpression ctx hf _ _ _
  | some found =>
    rcases found with ⟨opening, t⟩
    cases opening with
    | forLoop => exact ih.forStatement _ _
    | ifElse => exact ih.ifStatement _ _
    | whileLoop => exact ih.whileStatement _ _
    | returns => exact h.returnStatement ctx hf _
    | exit exit close => exact h.loopExit ctx _ _ _
    | block =>
      exact h.bind (ih.statementList ctx) fun statements =>
        h.bind (h.expect _ _) fun _ => h.pure _
    | print => exact h.closedExpression ctx hf _ _ _

include hf in
theorem forStatement_succ (line : Nat) :
    R (p.forStatement (fuel' + 1) ctx line) (Grammar.forStatement (fuel + 1) ctx line) := by
  rw [Reader.forStatement, Grammar.forStatement]
  exact h.bind (h.expect _ _) fun _ => h.bind (h.forInit ctx hf) fun init =>
    h.bind (h.unlessSees ctx hf _) fun condition => h.bind (h.expect _ _) fun _ =>
      h.bind (h.unlessSees ctx hf _) fun increment => h.bind (h.expect _ _) fun _ =>
        h.bind (ih.statement ctx) fun body => h.pure _

include hf in
theorem whileStatement_succ (line : Nat) :
    R (p.whileStatement (fuel' + 1) ctx line) (Grammar.whileStatement (fuel + 1) ctx line) := by
  rw [Reader.whileStatement, Grammar.whileStatement]
  exact h.bind (h.expect _ _) fun _ => h.bind (h.expression ctx hf) fun condition =>
    h.bind (h.expect _ _) fun _ => h.bind (ih.statement ctx) fun body => h.pure _

include hf in
theorem ifStatement_succ (line : Nat) :
    R (p.ifStatement (fuel' + 1) ctx line) (Grammar.ifStatement (fuel + 1) ctx line) := by
  rw [Reader.ifStatement, Grammar.ifStatement]
  refine h.bind (h.expect _ _) fun _ => h.bind (h.expression ctx hf) fun condition =>
    h.bind (h.expect _ _) fun _ => h.bind (ih.statement ctx) fun thenBranch =>
      h.bind (h.accept? _) fun else? => ?_
  cases else? with
  | none => exact h.pure _
  | some keyword => exact h.bind (ih.statement ctx) fun elseBranch => h.pure _

omit ih in
theorem statementsMatch {fuel fuel' : Nat} (hf : fuel ≤ fuel') :
    StatementsMatch p R fuel fuel' := by
  induction fuel generalizing fuel' with
  | zero =>
    exact {
      declaration := fun _ => h.fuelSpent _
      classDeclaration := fun _ _ => h.fuelSpent _
      methodList := fun _ => h.fuelSpent _
      function := fun _ _ => h.fuelSpent _
      statementList := fun _ => h.fuelSpent _
      statement := fun _ => h.fuelSpent _
      forStatement := fun _ _ => h.fuelSpent _
      whileStatement := fun _ _ => h.fuelSpent _
      ifStatement := fun _ _ => h.fuelSpent _ }
  | succ fuel ih =>
    cases fuel' with
    | zero => exact absurd hf (Nat.not_succ_le_zero _)
    | succ fuel' =>
      have hf := Nat.le_of_succ_le_succ hf
      have ih := ih hf
      exact {
        declaration := fun ctx => h.declaration_succ ctx hf ih
        classDeclaration := fun ctx => h.classDeclaration_succ ctx ih
        methodList := fun ctx => h.methodList_succ ctx ih
        function := fun ctx => h.function_succ ctx hf ih
        statementList := fun ctx => h.statementList_succ ctx ih
        statement := fun ctx => h.statement_succ ctx hf ih
        forStatement := fun ctx => h.forStatement_succ ctx hf ih
        whileStatement := fun ctx => h.whileStatement_succ ctx hf ih
        ifStatement := fun ctx => h.ifStatement_succ ctx hf ih }

end Matches
end Reader
end Grammar
end Lox
