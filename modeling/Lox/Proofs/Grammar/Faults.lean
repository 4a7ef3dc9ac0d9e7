import Lox.Grammar.Statement
import Lox.Proofs.Grammar.Fresh

/-! The rules of the grammar report faults of the grammar and nothing else, each at the line of a
token, and the trees that they read are fresh. -/
namespace Lox

/-- A fault of the grammar at a line of which `good` holds. -/
def Diagnostic.IsGrammarAt (good : Nat → Prop) (d : Diagnostic) : Prop :=
  good d.line ∧ ∃ f, d.fault = .grammar f

namespace Grammar

/-- All tokens to come are on good lines, and so is whatever has been reported. A cursor without a
mark of the end may run off its tokens, and then stands on line 0. -/
structure Cursor.Honest (good : Nat → Prop) (c : Cursor) : Prop where
  lines : ∀ t ∈ c.rest, good t.line
  ends : good 0 ∨ ∃ t ∈ c.rest, t.kind = .eof
  reports : ∀ d ∈ c.reports, d.IsGrammarAt good

namespace Cursor.Honest

variable {good : Nat → Prop} {c : Cursor}

theorem line (h : c.Honest good) : good c.line := by
  unfold Cursor.line
  split
  next hr =>
    refine h.ends.resolve_right ?_
    rintro ⟨t, ht, -⟩
    rw [hr] at ht
    cases ht
  next t rest hr => exact h.lines t (hr ▸ List.mem_cons_self)

theorem report (h : c.Honest good) (f : GrammarFault) :
    Honest good { c with reports := c.reports ++ [⟨c.line, .grammar f⟩] } where
  lines := h.lines
  ends := h.ends
  reports := List.forall_mem_append.2 ⟨h.reports, by simpa using ⟨h.line, f, rfl⟩⟩

/-- A token that is not the mark of the end may be taken. -/
theorem take (h : c.Honest good) {t : Token} {rest : List Token} (hr : c.rest = t :: rest)
    (ht : t.kind ≠ .eof) : good t.line ∧ Honest good { c with rest } := by
  have hlines := h.lines
  have hends := h.ends
  rw [hr] at hlines hends
  refine ⟨hlines t List.mem_cons_self, fun t' ht' => hlines t' (.tail _ ht'), ?_, h.reports⟩
  rcases hends with h0 | ⟨t', ht', hk⟩
  · exact .inl h0
  · rcases List.mem_cons.1 ht' with rfl | ht'
    · exact absurd hk ht
    · exact .inr ⟨t', ht', hk⟩

end Cursor.Honest

/-- What is reported, and what stops the rule, are faults of the grammar at good lines; what is read
is `fine`. -/
def Outcome.Honest {α : Type} (good : Nat → Prop) (fine : α → Prop) : Outcome α → Prop
  | .done a next => fine a ∧ next.Honest good
  | .failed fault reports => fault.IsGrammarAt good ∧ ∀ d ∈ reports, d.IsGrammarAt good
  | .outOfFuel => True

/-- The rule adds no fault of another kind and none at another line. -/
def Rule.Honest {α : Type} (good : Nat → Prop) (fine : α → Prop) (r : Rule α) : Prop :=
  ∀ c : Cursor, c.Honest good → (r c).Honest good fine

/-- Nothing is asked of a tree: its lines are not reported at. -/
def anything {α : Type} : α → Prop := fun _ => True

namespace Rule.Honest

variable {α β : Type} {good : Nat → Prop} {fine : α → Prop} {fine' : β → Prop}

theorem pure {a : α} (h : fine a) : (Pure.pure a : Rule α).Honest good fine := fun _ hc => ⟨h, hc⟩

theorem tree (a : α) : (Pure.pure a : Rule α).Honest good anything := .pure trivial

theorem bind {r : Rule α} {f : α → Rule β} (hr : r.Honest good fine)
    (hf : ∀ a, fine a → (f a).Honest good fine') : (r >>= f).Honest good fine' := by
  intro c hc
  have h := hr c hc
  rw [Rule.bind_apply]
  cases hrc : r c with
  | done a next =>
    rw [hrc] at h
    exact hf a h.1 next h.2
  | failed fault reports => rwa [hrc] at h
  | outOfFuel => trivial

/-- Behind a tree. -/
theorem andThen {r : Rule α} {f : α → Rule β} (hr : r.Honest good anything)
    (hf : ∀ a, (f a).Honest good fine') : (r >>= f).Honest good fine' :=
  .bind hr fun a _ => hf a

theorem fuelSpent : (Grammar.fuelSpent : Rule α).Honest good fine := fun _ _ => trivial

theorem fault {line : Nat} (h : good line) (f : GrammarFault) :
    (Grammar.fault line f : Rule α).Honest good fine :=
  fun _ hc => ⟨⟨h, f, rfl⟩, hc.reports⟩

theorem faultHere (f : GrammarFault) : (Grammar.faultHere f : Rule α).Honest good fine :=
  fun _ hc => ⟨⟨hc.line, f, rfl⟩, hc.reports⟩

theorem reportHere (f : GrammarFault) : (Grammar.reportHere f).Honest good anything :=
  fun _ hc => ⟨trivial, hc.report f⟩

theorem atEnd : Grammar.atEnd.Honest good anything := fun _ hc => ⟨trivial, hc⟩

theorem sees (kind : Kind) : (Grammar.sees kind).Honest good anything := fun _ hc => ⟨trivial, hc⟩

theorem accept? (kind : Kind) :
    (Grammar.accept? kind).Honest good fun t? => ∀ t ∈ t?, good t.line := by
  intro c hc
  unfold Grammar.accept?
  split
  next => exact ⟨by simp, hc⟩
  next t rest hr =>
    split
    next hk =>
      obtain ⟨hne, -⟩ : t.kind ≠ .eof ∧ t.kind = kind := by simpa using hk
      obtain ⟨hline, hrest⟩ := hc.take hr hne
      exact ⟨by simpa using hline, hrest⟩
    next => exact ⟨by simp, hc⟩

theorem acceptSome? {f : Kind → Option α} (hf : f .eof = none) :
    (Grammar.acceptSome? f).Honest good fun found? => ∀ found ∈ found?, good found.2.line := by
  intro c hc
  unfold Grammar.acceptSome?
  split
  next => exact ⟨by simp, hc⟩
  next t rest hr =>
    split
    next a ha =>
      obtain ⟨hline, hrest⟩ := hc.take hr fun hk => by
        rw [hk, hf] at ha
        cases ha
      exact ⟨by simpa using hline, hrest⟩
    next => exact ⟨by simp, hc⟩

/-- A rule that is allowed only if `p` holds. -/
theorem guarded {p : Prop} [Decidable p] {r s : Rule α} (hr : p → r.Honest good fine)
    (hs : s.Honest good fine) : (if p then r else s).Honest good fine := by
  split
  next hp => exact hr hp
  next => exact hs

theorem ite {p : Prop} [Decidable p] {r s : Rule α} (hr : r.Honest good fine)
    (hs : s.Honest good fine) : (if p then r else s).Honest good fine :=
  .guarded (fun _ => hr) hs

/-- A report that is made or not, and what follows in either case. -/
theorem optional {p : Prop} [Decidable p] {r : Rule Unit} {f : Unit → Rule α}
    (hr : r.Honest good anything) (hf : ∀ a, (f a).Honest good fine) :
    (if p then r >>= f else f ()).Honest good fine :=
  .ite (.andThen hr hf) (hf ())

theorem expect (kind : Kind) (what : Expected) :
    (Grammar.expect kind what).Honest good fun t => good t.line :=
  .bind (.accept? kind) fun t? ht => by
    cases t? with
    | none => exact .faultHere _
    | some t => exact .pure (ht t rfl)

/-- Behind a token whose line is not kept. -/
theorem mark {kind : Kind} {what : Expected} {f : Token → Rule α}
    (hf : ∀ t, (f t).Honest good fine) : (Grammar.expect kind what >>= f).Honest good fine :=
  .bind (.expect kind what) fun t _ => hf t

end Rule.Honest

/-- The rules of expressions at one amount of fuel. -/
structure ExpressionsHonest (good : Nat → Prop) (fuel : Nat) : Prop where
  expression (ctx : Context) : (expression fuel ctx).Honest good (Expr.Fresh ctx.inClass)
  operators (ctx : Context) {ts : List Tier} : (∀ tier ∈ ts, tier .eof = none) →
    (operators fuel ctx ts).Honest good (Expr.Fresh ctx.inClass)
  operatorsAfter (ctx : Context) {tier : Tier} {ts : List Tier} {left : Expr} :
    left.Fresh ctx.inClass → tier .eof = none → (∀ tier ∈ ts, tier .eof = none) →
    (operatorsAfter fuel ctx tier ts left).Honest good (Expr.Fresh ctx.inClass)
  unary (ctx : Context) : (unary fuel ctx).Honest good (Expr.Fresh ctx.inClass)
  callsAfter (ctx : Context) {callee : Expr} : callee.Fresh ctx.inClass →
    (callsAfter fuel ctx callee).Honest good (Expr.Fresh ctx.inClass)
  argumentList (ctx : Context) (taken : Nat) :
    (argumentList fuel ctx taken).Honest good (argumentsFresh ctx.inClass)
  primary (ctx : Context) : (primary fuel ctx).Honest good (Expr.Fresh ctx.inClass)

namespace ExpressionsHonest

variable {good : Nat → Prop} {fuel : Nat} (ctx : Context)

theorem zero : ExpressionsHonest good 0 where
  expression _ := .fuelSpent
  operators _ _ _ := .fuelSpent
  operatorsAfter _ _ _ _ _ _ _ := .fuelSpent
  unary _ := .fuelSpent
  callsAfter _ _ _ := .fuelSpent
  argumentList _ _ := .fuelSpent
  primary _ := .fuelSpent

theorem expression_succ (ih : ExpressionsHonest good fuel) :
    (Grammar.expression (fuel + 1) ctx).Honest good (Expr.Fresh ctx.inClass) := by
  rw [Grammar.expression]
  refine .bind (ih.operators ctx (by decide)) fun target htarget => .bind (.accept? _) ?_
  intro sign? hsign
  cases sign? with
  | none => exact .pure htarget
  | some sign =>
    refine .bind (ih.expression ctx) ?_
    intro value hvalue
    cases target with
    | read => exact .pure (htarget.append hvalue)
    | get => exact .pure (htarget.append hvalue)
    | _ => exact .fault (hsign sign rfl) _

theorem operators_succ (ih : ExpressionsHonest good fuel) {ts : List Tier}
    (hts : ∀ tier ∈ ts, tier .eof = none) :
    (Grammar.operators (fuel + 1) ctx ts).Honest good (Expr.Fresh ctx.inClass) := by
  cases ts with
  | nil =>
    rw [Grammar.operators]
    exact ih.unary ctx
  | cons tier tighter =>
    obtain ⟨htier, htighter⟩ := List.forall_mem_cons.1 hts
    rw [Grammar.operators]
    exact .bind (ih.operators ctx htighter) fun left hleft =>
      ih.operatorsAfter ctx hleft htier htighter

theorem operatorsAfter_succ (ih : ExpressionsHonest good fuel) {tier : Tier} {ts : List Tier}
    {left : Expr} (hleft : left.Fresh ctx.inClass) (htier : tier .eof = none)
    (hts : ∀ tier ∈ ts, tier .eof = none) :
    (Grammar.operatorsAfter (fuel + 1) ctx tier ts left).Honest good (Expr.Fresh ctx.inClass) := by
  rw [Grammar.operatorsAfter]
  refine .bind (.acceptSome? htier) ?_
  intro op? _
  cases op? with
  | none => exact .pure hleft
  | some op =>
    exact .bind (ih.operators ctx hts) fun right hright =>
      ih.operatorsAfter ctx (hleft.append hright) htier hts

theorem unary_succ (ih : ExpressionsHonest good fuel) :
    (Grammar.unary (fuel + 1) ctx).Honest good (Expr.Fresh ctx.inClass) := by
  rw [Grammar.unary]
  refine .bind (.acceptSome? rfl) ?_
  intro op? _
  cases op? with
  | none => exact .bind (ih.primary ctx) fun callee hcallee => ih.callsAfter ctx hcallee
  | some op => exact .bind (ih.unary ctx) fun right hright => .pure hright

theorem callsAfter_succ (ih : ExpressionsHonest good fuel) {callee : Expr}
    (hcallee : callee.Fresh ctx.inClass) :
    (Grammar.callsAfter (fuel + 1) ctx callee).Honest good (Expr.Fresh ctx.inClass) := by
  simp only [Grammar.callsAfter]
  refine .bind (.accept? _) ?_
  intro paren? _
  cases paren? with
  | some paren =>
    refine .andThen (.sees _) fun closed => .ite ?_ ?_
    · exact .bind (.pure (allFresh_nil _)) fun arguments hargs =>
        .mark fun _ => ih.callsAfter ctx (hcallee.append hargs)
    · exact .bind (ih.argumentList ctx 0) fun arguments hargs =>
        .mark fun _ => ih.callsAfter ctx (hcallee.append hargs)
  | none =>
    refine .bind (.accept? _) ?_
    intro dot? _
    cases dot? with
    | some dot => exact .mark fun name => ih.callsAfter ctx hcallee
    | none => exact .pure hcallee

theorem argumentList_succ (ih : ExpressionsHonest good fuel) (taken : Nat) :
    (Grammar.argumentList (fuel + 1) ctx taken).Honest good (argumentsFresh ctx.inClass) := by
  rw [Grammar.argumentList]
  refine .optional (.reportHere _) fun _ => .bind (ih.expression ctx) ?_
  intro argument hargument
  refine .bind (.accept? _) ?_
  intro comma? _
  cases comma? with
  | none => exact .pure (hargument.append (allFresh_nil _))
  | some comma =>
    exact .bind (ih.argumentList ctx _) fun more hmore => .pure (hargument.append hmore)

theorem primary_succ (ih : ExpressionsHonest good fuel) :
    (Grammar.primary (fuel + 1) ctx).Honest good (Expr.Fresh ctx.inClass) := by
  rw [Grammar.primary]
  refine .bind (.acceptSome? rfl) ?_
  intro literal? _
  cases literal? with
  | some literal => exact .pure (allFresh_nil _)
  | none =>
  refine .bind (.accept? _) ?_
  intro name? _
  cases name? with
  | some name => exact .pure (allFresh_name _)
  | none =>
  refine .bind (.accept? _) ?_
  intro this? hthis
  cases this? with
  | some this =>
    exact .guarded (fun hclass => .pure (allFresh_this hclass)) (.fault (hthis this rfl) _)
  | none =>
  refine .bind (.accept? _) ?_
  intro paren? _
  cases paren? with
  | some paren => exact .bind (ih.expression ctx) fun inner hinner => .mark fun _ => .pure hinner
  | none => exact .andThen .atEnd fun ended => .ite (.faultHere _) (.faultHere _)

end ExpressionsHonest

variable (good : Nat → Prop)

theorem expressionsHonest (fuel : Nat) : ExpressionsHonest good fuel := by
  induction fuel with
  | zero => exact .zero
  | succ fuel ih =>
    exact {
      expression := fun ctx => ih.expression_succ ctx
      operators := fun ctx => ih.operators_succ ctx
      operatorsAfter := fun ctx => ih.operatorsAfter_succ ctx
      unary := fun ctx => ih.unary_succ ctx
      callsAfter := fun ctx => ih.callsAfter_succ ctx
      argumentList := fun ctx => ih.argumentList_succ ctx
      primary := fun ctx => ih.primary_succ ctx }

section
variable (fuel : Nat) (ctx : Context) (line : Nat)

theorem expression_honest : (expression fuel ctx).Honest good (Expr.Fresh ctx.inClass) :=
  (expressionsHonest good fuel).expression ctx

theorem unlessSees_honest (kind : Kind) :
    (unlessSees kind (expression fuel ctx)).Honest good (optionalFresh ctx.inClass) :=
  .andThen (.sees _) fun _ => .ite (.pure (allFresh_nil _))
    (.bind (expression_honest good fuel ctx) fun _ hvalue => .pure hvalue)

theorem varDeclaration_honest :
    (varDeclaration fuel ctx line).Honest good (VarDecl.Fresh ctx.inClass) := by
  unfold varDeclaration
  refine .mark fun name => .bind (.accept? _) ?_
  intro sign? _
  cases sign? with
  | none => exact .bind (.pure (allFresh_nil _)) fun _ hvalue => .mark fun _ => .pure hvalue
  | some sign =>
    refine .bind (expression_honest good fuel ctx) fun value hvalue => ?_
    exact .mark fun _ => .pure hvalue

theorem parameterList_honest (taken : Nat) : (parameterList fuel taken).Honest good anything := by
  induction fuel generalizing taken with
  | zero => exact .fuelSpent
  | succ fuel ih =>
    rw [parameterList]
    refine .optional (.reportHere _) fun _ => .mark ?_
    intro param
    refine .bind (.accept? _) ?_
    intro comma? _
    cases comma? with
    | none => exact .tree _
    | some comma => exact .andThen (ih _) fun more => .tree _

theorem forInit_honest : (forInit fuel ctx).Honest good (ForInit.Fresh ctx.inClass) := by
  unfold forInit
  refine .bind (.accept? _) ?_
  intro semicolon? _
  cases semicolon? with
  | some semicolon => exact .pure trivial
  | none =>
  refine .bind (.accept? _) ?_
  intro var? _
  cases var? with
  | some var => exact .bind (varDeclaration_honest good fuel ctx _) fun decl hdecl => .pure hdecl
  | none =>
    exact .bind (expression_honest good fuel ctx) fun _ hvalue => .mark fun _ => .pure hvalue

end

/-- The rules of statements at one amount of fuel. -/
structure StatementsHonest (fuel : Nat) : Prop where
  declaration (ctx : Context) : (declaration fuel ctx).Honest good (Stmt.Fresh ctx.inClass)
  classDeclaration (ctx : Context) (line : Nat) :
    (classDeclaration fuel ctx.enterClass line).Honest good (Stmt.Fresh ctx.inClass)
  methodList (ctx : Context) : (methodList fuel ctx).Honest good (methodsFresh ctx.inClass)
  function (ctx : Context) (start : Option Nat) :
    (function fuel ctx start).Honest good (functionFresh ctx.inClass)
  statementList (ctx : Context) :
    (statementList fuel ctx).Honest good (statementsFresh ctx.inClass)
  statement (ctx : Context) : (statement fuel ctx).Honest good (Stmt.Fresh ctx.inClass)
  forStatement (ctx : Context) (line : Nat) :
    (forStatement fuel ctx line).Honest good (Stmt.Fresh ctx.inClass)
  whileStatement (ctx : Context) (line : Nat) :
    (whileStatement fuel ctx line).Honest good (Stmt.Fresh ctx.inClass)
  ifStatement (ctx : Context) (line : Nat) :
    (ifStatement fuel ctx line).Honest good (Stmt.Fresh ctx.inClass)

namespace StatementsHonest

variable {good : Nat → Prop} {fuel : Nat} (ctx : Context)

theorem zero : StatementsHonest good 0 where
  declaration _ := .fuelSpent
  classDeclaration _ _ := .fuelSpent
  methodList _ := .fuelSpent
  function _ _ := .fuelSpent
  statementList _ := .fuelSpent
  statement _ := .fuelSpent
  forStatement _ _ := .fuelSpent
  whileStatement _ _ := .fuelSpent
  ifStatement _ _ := .fuelSpent

theorem declaration_succ (ih : StatementsHonest good fuel) :
    (Grammar.declaration (fuel + 1) ctx).Honest good (Stmt.Fresh ctx.inClass) := by
  rw [Grammar.declaration]
  refine .bind (.accept? _) ?_
  intro class? _
  cases class? with
  | some keyword => exact ih.classDeclaration _ _
  | none =>
  refine .bind (.accept? _) ?_
  intro fun? _
  cases fun? with
  | some keyword => exact .bind (ih.function ctx _) fun decl hdecl => .pure hdecl
  | none =>
  refine .bind (.accept? _) ?_
  intro var? _
  cases var? with
  | some keyword =>
    exact .bind (varDeclaration_honest good fuel ctx _) fun decl hdecl => .pure hdecl
  | none => exact ih.statement ctx

theorem classDeclaration_succ (ih : StatementsHonest good fuel) (line : Nat) :
    (Grammar.classDeclaration (fuel + 1) ctx.enterClass line).Honest good
      (Stmt.Fresh ctx.inClass) := by
  rw [Grammar.classDeclaration]
  exact .mark fun name => .mark fun _ => .bind (ih.methodList ctx.enterClass)
    fun methods hmethods => .mark fun _ => .pure hmethods

theorem methodList_succ (ih : StatementsHonest good fuel) :
    (Grammar.methodList (fuel + 1) ctx).Honest good (methodsFresh ctx.inClass) := by
  have hrest (method : FunDecl Stmt) (hmethod : functionFresh ctx.inClass method) :
      Rule.Honest good (methodsFresh ctx.inClass) (do
        let more ← Grammar.methodList fuel ctx
        pure (method :: more)) :=
    .bind (ih.methodList ctx) fun more hmore => .pure ⟨hmethod, hmore⟩
  rw [Grammar.methodList]
  refine .andThen (.sees _) fun _ =>
    .ite (.pure trivial) (.andThen .atEnd fun _ => .ite (.faultHere _) ?_)
  refine .bind (.accept? _) ?_
  intro fun? _
  cases fun? with
  | some keyword => exact .bind (ih.function ctx _) hrest
  | none =>
    exact .andThen (.sees _) fun _ => .ite (.bind (ih.function ctx _) hrest)
      (.bind (.faultHere _) hrest)

theorem function_succ (ih : StatementsHonest good fuel) (start : Option Nat) :
    (Grammar.function (fuel + 1) ctx start).Honest good (functionFresh ctx.inClass) := by
  have hrest (name : Token) (params : List String) :
      Rule.Honest good (functionFresh ctx.inClass) (do
        let _ ← Grammar.expect .rightParen .parametersEnd
        let _ ← Grammar.expect .leftBrace .functionBodyStart
        let body ← Grammar.statementList fuel ctx.enterFunction
        let _ ← Grammar.expect .rightBrace .blockEnd
        pure (⟨name.lexeme, params, body, start.getD name.line, 0⟩ : FunDecl Stmt)) :=
    .mark fun _ => .mark fun _ => .bind (ih.statementList _) fun body hbody =>
      .mark fun _ => .pure hbody
  rw [Grammar.function]
  refine .mark fun name => .mark fun _ => .andThen (.sees _) ?_
  intro _
  exact .ite (.andThen (.tree _) (hrest name))
    (.andThen (parameterList_honest good fuel 0) (hrest name))

theorem statementList_succ (ih : StatementsHonest good fuel) :
    (Grammar.statementList (fuel + 1) ctx).Honest good (statementsFresh ctx.inClass) := by
  rw [Grammar.statementList]
  refine .andThen (.sees _) fun _ =>
    .ite (.pure trivial) (.andThen .atEnd fun _ => .ite (.pure trivial) ?_)
  exact .bind (ih.declaration ctx) fun s hs =>
    .bind (ih.statementList ctx) fun more hmore => .pure ⟨hs, hmore⟩

theorem statement_succ (ih : StatementsHonest good fuel) :
    (Grammar.statement (fuel + 1) ctx).Honest good (Stmt.Fresh ctx.inClass) := by
  rw [Grammar.statement]
  refine .bind (.acceptSome? rfl) ?_
  intro opening? hopening
  have hvalue (what : Expected) {f : Expr → Stmt}
      (hf : ∀ e : Expr, e.Fresh ctx.inClass → (f e).Fresh ctx.inClass) :
      Rule.Honest good (Stmt.Fresh ctx.inClass) (do
        let value ← Grammar.expression fuel ctx
        let _ ← Grammar.expect .semicolon what
        pure (f value)) :=
    .bind (expression_honest good fuel ctx) fun value hvalue => .mark fun _ => .pure (hf _ hvalue)
  cases opening? with
  | none => exact hvalue _ fun _ => id
  | some found =>
    have hline := hopening found rfl
    rcases found with ⟨opening, t⟩
    cases opening with
    | forLoop => exact ih.forStatement _ _
    | ifElse => exact ih.ifStatement _ _
    | whileLoop => exact ih.whileStatement _ _
    | returns =>
      exact .ite (.fault hline _) (.bind (unlessSees_honest good fuel ctx _) fun value hvalue =>
        .mark fun _ => .pure hvalue)
    | exit exit close => exact .ite (.fault hline _) (.mark fun _ => .pure trivial)
    | block =>
      exact .bind (ih.statementList ctx) fun statements hstatements =>
        .mark fun _ => .pure hstatements
    | print => exact hvalue _ fun _ => id

theorem forStatement_succ (ih : StatementsHonest good fuel) (line : Nat) :
    (Grammar.forStatement (fuel + 1) ctx line).Honest good (Stmt.Fresh ctx.inClass) := by
  rw [Grammar.forStatement]
  exact .mark fun _ => .bind (forInit_honest good fuel ctx) fun init hinit =>
    .bind (unlessSees_honest good fuel ctx _) fun condition hcondition => .mark fun _ =>
      .bind (unlessSees_honest good fuel ctx _) fun increment hincrement => .mark fun _ =>
        .bind (ih.statement ctx) fun body hbody => .pure ⟨hinit, hcondition, hincrement, hbody⟩

theorem whileStatement_succ (ih : StatementsHonest good fuel) (line : Nat) :
    (Grammar.whileStatement (fuel + 1) ctx line).Honest good (Stmt.Fresh ctx.inClass) := by
  rw [Grammar.whileStatement]
  exact .mark fun _ => .bind (expression_honest good fuel ctx) fun condition hcondition =>
    .mark fun _ => .bind (ih.statement ctx) fun body hbody => .pure ⟨hcondition, hbody⟩

theorem ifStatement_succ (ih : StatementsHonest good fuel) (line : Nat) :
    (Grammar.ifStatement (fuel + 1) ctx line).Honest good (Stmt.Fresh ctx.inClass) := by
  rw [Grammar.ifStatement]
  refine .mark fun _ => .bind (expression_honest good fuel ctx) fun condition hcondition =>
    .mark fun _ => .bind (ih.statement ctx) fun thenBranch hthen => .bind (.accept? _) ?_
  intro else? _
  cases else? with
  | none => exact .pure ⟨hcondition, hthen⟩
  | some keyword =>
    exact .bind (ih.statement ctx) fun elseBranch helse => .pure ⟨hcondition, hthen, helse⟩

end StatementsHonest

theorem statementsHonest (fuel : Nat) : StatementsHonest good fuel := by
  induction fuel with
  | zero => exact .zero
  | succ fuel ih =>
    exact {
      declaration := fun ctx => ih.declaration_succ ctx
      classDeclaration := fun ctx => ih.classDeclaration_succ ctx
      methodList := fun ctx => ih.methodList_succ ctx
      function := fun ctx => ih.function_succ ctx
      statementList := fun ctx => ih.statementList_succ ctx
      statement := fun ctx => ih.statement_succ ctx
      forStatement := fun ctx => ih.forStatement_succ ctx
      whileStatement := fun ctx => ih.whileStatement_succ ctx
      ifStatement := fun ctx => ih.ifStatement_succ ctx }

variable {good}

theorem program_honest {fuel : Nat} {c : Cursor} {p : Parsed} (hc : c.Honest good)
    (hp : program fuel c = some p) :
    (∀ d ∈ p.diagnostics, d.IsGrammarAt good) ∧ statementsFresh false p.statements := by
  induction fuel generalizing c p with
  | zero => cases hp
  | succ fuel ih =>
    rw [program] at hp
    split at hp
    next =>
      cases hp
      exact ⟨hc.reports, trivial⟩
    next =>
      have h := (statementsHonest good fuel).declaration .top c hc
      cases hd : declaration fuel .top c with
      | done s next =>
        rw [hd] at h hp
        obtain ⟨rest, hr, rfl⟩ := Option.map_eq_some_iff.1 hp
        have hrest := ih (p := rest) h.2 hr
        exact ⟨hrest.1, h.1, hrest.2⟩
      | failed fault reports =>
        rw [hd] at h hp
        cases hp
        exact ⟨List.forall_mem_append.2 ⟨h.2, by simpa using h.1⟩, trivial⟩
      | outOfFuel => rw [hd] at hp; cases hp

/-- What reading a token list reports is a fault of the grammar, at the line of a token. -/
theorem parse_honest (good : Nat → Prop) {tokens : List Token} (hlines : ∀ t ∈ tokens, good t.line)
    (hends : good 0 ∨ ∃ t ∈ tokens, t.kind = .eof) :
    ∀ d ∈ (parse tokens).diagnostics, d.IsGrammarAt good := by
  unfold parse
  cases hp : program (enoughFuel tokens) ⟨tokens, []⟩ with
  | none => simp
  | some p => exact (program_honest ⟨hlines, hends, by simp⟩ hp).1

theorem parse_fresh (tokens : List Token) : statementsFresh false (parse tokens).statements := by
  unfold parse
  cases hp : program (enoughFuel tokens) ⟨tokens, []⟩ with
  | none => trivial
  | some p =>
    have hc : (⟨tokens, []⟩ : Cursor).Honest fun _ => True :=
      ⟨fun _ _ => trivial, .inl trivial, by simp⟩
    exact (program_honest hc hp).2

end Grammar
end Lox
