import Lox.Proofs.Grammar.ExpressionCompleteness

/-! Every statement that the grammar has is read back from each of its spellings. -/
namespace Lox.Grammar

theorem Cursor.Offers.exact {w : List Symbol} {c next : Cursor} (h : Cursor.Offers w c next) :
    Cursor.Offers (w ++ []) c next := by
  rwa [List.append_nil]

/-! The parts of statements. Each stands in front of a mark that ends it. -/

/-- Marks that end an expression. -/
structure EndMark (kind : Kind) : Prop where
  not_eof : kind ≠ .eof
  opens : opensExpression kind = false
  loosens : infixLevel? kind = none

section
variable {ctx : Context} {fuel : Nat} {c next : Cursor} {t : Token} {kind : Kind}

theorem endMark_semicolon : EndMark .semicolon := ⟨by decide, rfl, rfl⟩

theorem endMark_rightParen : EndMark .rightParen := ⟨by decide, rfl, rfl⟩

theorem expression_yields {e : Expr} (hg : e.Grammatical ctx.inClass) (hk : t.kind = kind)
    (he : EndMark kind) (ho : Cursor.Offers e.symbols c (next.push t)) :
    (expression fuel ctx).Yields c (Expr.Resembles e) (next.push t) :=
  (readsBack e hg).expression ho (.push_none (by rw [hk]; exact he.loosens))

theorem unlessSees_yields {value : Option Expr} (hg : optionalGrammatical ctx.inClass value)
    (hk : t.kind = kind) (he : EndMark kind)
    (ho : Cursor.Offers (optionalSymbols value) c (next.push t)) :
    (unlessSees kind (expression fuel ctx)).Yields c
      (fun value' => value'.map Expr.withoutLines = value.map Expr.withoutLines)
      (next.push t) := by
  unfold unlessSees
  cases value with
  | none =>
    cases ho
    exact .step (sees_push hk he.not_eof) (.pure rfl)
  | some e =>
    obtain ⟨t', _, rfl, ht'⟩ := opens_of_offers hg ho.exact
    refine .step (sees_push_ne (opensExpression_ne ht' he.opens)) ?_
    exact (expression_yields hg hk he ho).bind fun e' h => .pure (congrArg some h)

theorem varDeclaration_yields {decl : VarDecl} {line : Nat}
    (hg : optionalGrammatical ctx.inClass decl.initializer)
    (ho : Cursor.Offers decl.symbols c next) :
    (varDeclaration fuel ctx line).Yields c (fun d => d.withoutLines = decl.withoutLines) next := by
  rcases decl with ⟨name, initializer, _⟩
  obtain ⟨t, _, hk, rfl, rfl, hrest⟩ := ho.identifier
  unfold varDeclaration
  refine .step (expect_push hk (by decide)) ?_
  cases initializer with
  | none =>
    obtain ⟨close, _, hc, rfl, rfl⟩ := hrest.mark
    refine .step (accept?_push_ne (by rw [hc]; decide)) (.step rfl ?_)
    exact .step (expect_push hc (by decide)) (.pure rfl)
  | some e =>
    obtain ⟨sign, _, hs, rfl, hvalue⟩ := hrest.mark
    obtain ⟨_, hexpr, hend⟩ := Cursor.Offers.append.1 hvalue
    obtain ⟨close, _, hc, rfl, rfl⟩ := hend.mark
    refine .step (accept?_push hs (by decide)) ?_
    refine (expression_yields hg hc endMark_semicolon hexpr).bind fun e' he => .step rfl ?_
    refine .step (expect_push hc (by decide)) (.pure ?_)
    exact congrArg (fun e => VarDecl.mk t.lexeme (some e) 0) he

theorem forInit_yields {init : ForInit} (hg : init.Grammatical ctx.inClass)
    (ho : Cursor.Offers init.symbols c next) :
    (forInit fuel ctx).Yields c (fun i => i.withoutLines = init.withoutLines) next := by
  unfold forInit
  cases init with
  | nothing =>
    obtain ⟨t, _, hk, rfl, rfl⟩ := ho.mark
    exact .step (accept?_push hk (by decide)) (.pure rfl)
  | declare decl =>
    obtain ⟨t, _, hk, rfl, hdecl⟩ := ho.mark
    refine .step (accept?_push_ne (by rw [hk]; decide)) ?_
    refine .step (accept?_push hk (by decide)) ?_
    exact (varDeclaration_yields hg hdecl).bind fun d hd => .pure (congrArg ForInit.declare hd)
  | evaluate e =>
    obtain ⟨_, hexpr, hend⟩ := Cursor.Offers.append.1 ho
    obtain ⟨close, _, hc, rfl, rfl⟩ := hend.mark
    obtain ⟨t, _, rfl, ht⟩ := opens_of_offers hg hexpr.exact
    refine .step (accept?_push_ne (opensExpression_ne ht rfl)) ?_
    refine .step (accept?_push_ne (opensExpression_ne ht rfl)) ?_
    apply (expression_yields hg hc endMark_semicolon hexpr).bind
    intro e' he
    exact .step (expect_push hc (by decide)) (.pure (congrArg ForInit.evaluate he))

theorem parameterList_yields {params : List String} {taken : Nat} (hclose : t.kind = .rightParen)
    (hne : params ≠ []) (hlen : taken + params.length ≤ Capped.limit)
    (ho : Cursor.Offers (parameterSymbols params) c (next.push t)) :
    (parameterList fuel taken).Yields c (· = params) (next.push t) := by
  induction params generalizing fuel taken c with
  | nil => exact absurd rfl hne
  | cons param params ih =>
    rw [List.length_cons] at hlen
    cases fuel with
    | zero => exact .inl rfl
    | succ fuel =>
    rw [parameterList, if_neg (by omega)]
    cases params with
    | nil =>
      obtain ⟨p, _, hp, rfl, rfl, rfl⟩ := ho.identifier
      refine .step (expect_push hp (by decide)) ?_
      exact .step (accept?_push_ne (by rw [hclose]; decide)) (.pure rfl)
    | cons param₂ params =>
      obtain ⟨p, _, hp, rfl, rfl, hrest⟩ := ho.identifier
      obtain ⟨comma, _, hc, rfl, hmore⟩ := hrest.mark
      refine .step (expect_push hp (by decide)) ?_
      refine .step (accept?_push hc (by decide)) ?_
      refine (ih (by simp) (by omega) hmore).bind fun more hm => .pure ?_
      rw [hm]

/-- The list between the parentheses of a function, which may be empty. -/
theorem parametersUpToEnd_yields {params : List String} (hclose : t.kind = .rightParen)
    (hlen : params.length ≤ Capped.limit)
    (ho : Cursor.Offers (parameterSymbols params) c (next.push t)) :
    (if c.sees .rightParen = true then pure [] else parameterList fuel 0).Yields c (· = params)
      (next.push t) := by
  cases params with
  | nil =>
    cases ho
    rw [if_pos (by simp [Cursor.sees, Cursor.push, hclose])]
    exact .pure rfl
  | cons param params =>
    have hfirst : ∃ (p : Token) (mid : Cursor), p.kind = .identifier ∧ c = mid.push p := by
      cases params with
      | nil =>
        obtain ⟨p, _, hp, -, rfl, -⟩ := ho.identifier
        exact ⟨p, _, hp, rfl⟩
      | cons =>
        obtain ⟨p, _, hp, -, rfl, -⟩ := ho.identifier
        exact ⟨p, _, hp, rfl⟩
    rcases hfirst with ⟨p, _, hp, rfl⟩
    rw [if_neg (by simp [Cursor.sees, Cursor.push, hp])]
    exact parameterList_yields hclose (by simp) (by omega) ho

end

/-! What statements start with. -/

/-- Kinds that a statement starts with, other than a declaration. -/
def opensStatement (kind : Kind) : Bool := opensExpression kind || (opening? kind).isSome

/-- Kinds that a declaration or another statement starts with. -/
def opensDeclaration (kind : Kind) : Bool :=
  opensStatement kind || kind == .kwVar || kind == .kwFun || kind == .kwClass

theorem opensStatement_of_expression {kind : Kind} (h : opensExpression kind) :
    opensStatement kind := by
  simp [opensStatement, h]

theorem opensDeclaration_of_statement {kind : Kind} (h : opensStatement kind) :
    opensDeclaration kind := by
  simp [opensDeclaration, h]

theorem opening?_none {kind : Kind} (h : opensExpression kind) : opening? kind = none := by
  cases kind <;> first | rfl | cases h

theorem opensDeclaration_ne {kind other : Kind} (h : opensDeclaration kind)
    (ho : opensDeclaration other = false) : kind ≠ other := by
  rintro rfl
  rw [h] at ho
  cases ho

theorem opensStatement_ne {kind other : Kind} (h : opensStatement kind)
    (ho : opensStatement other = false) : kind ≠ other := by
  rintro rfl
  rw [h] at ho
  cases ho

theorem spelledAs_head {ctx : Context} {s : Stmt} (hg : s.Grammatical ctx)
    (hd : s.isDeclaration = false) {w : List Symbol} (hs : s.SpelledAs w) :
    ∃ a v, w = a :: v ∧ opensStatement a.kind := by
  cases s with
  | expression e _ =>
    obtain ⟨a, v, he, ha, -⟩ := symbols_head ctx.inClass e hg
    exact ⟨a, _, by rw [hs, he]; rfl, opensStatement_of_expression ha⟩
  | var | function | classDecl => cases hd
  | print => exact ⟨_, _, hs, rfl⟩
  | block =>
    rcases hs with ⟨v, -, rfl⟩
    exact ⟨_, _, rfl, rfl⟩
  | ifThen =>
    rcases hs with ⟨v, -, rfl⟩
    exact ⟨_, _, rfl, rfl⟩
  | ifElse =>
    rcases hs with ⟨u, v, -, -, rfl⟩
    exact ⟨_, _, rfl, rfl⟩
  | whileLoop =>
    rcases hs with ⟨v, -, rfl⟩
    exact ⟨_, _, rfl, rfl⟩
  | forLoop =>
    rcases hs with ⟨v, -, rfl⟩
    exact ⟨_, _, rfl, rfl⟩
  | loopExit exit _ => exact ⟨_, _, hs, by cases exit <;> rfl⟩
  | returns => exact ⟨_, _, hs, rfl⟩

theorem spelledAs_declaration_head {ctx : Context} {s : Stmt} (hg : s.Grammatical ctx)
    {w : List Symbol} (hs : s.SpelledAs w) : ∃ a v, w = a :: v ∧ opensDeclaration a.kind := by
  cases hd : s.isDeclaration with
  | false =>
    obtain ⟨a, v, hw, ha⟩ := spelledAs_head hg hd hs
    exact ⟨a, v, hw, opensDeclaration_of_statement ha⟩
  | true =>
    cases s with
    | var => exact ⟨_, _, hs, rfl⟩
    | function =>
      rcases hs with ⟨v, -, rfl⟩
      exact ⟨_, _, rfl, rfl⟩
    | classDecl =>
      rcases hs with ⟨v, -, rfl⟩
      exact ⟨_, _, rfl, rfl⟩
    | _ => cases hd

/-! Promises about one statement, for the rules that may be asked to read it. -/

section
variable (ctx : Context)

def ReadByDeclaration (s : Stmt) : Prop :=
  ∀ ⦃fuel w c next⦄, s.SpelledAs w → Cursor.Offers w c next →
    (s.takesElse → next.sees .kwElse = false) →
      (declaration fuel ctx).Yields c (Stmt.Resembles s) next

def ReadByStatement (s : Stmt) : Prop :=
  ∀ ⦃fuel w c next⦄, s.SpelledAs w → Cursor.Offers w c next →
    (s.takesElse → next.sees .kwElse = false) →
      (statement fuel ctx).Yields c (Stmt.Resembles s) next

def FunctionReadsBack (d : FunDecl Stmt) : Prop :=
  ∀ ⦃fuel start w c next⦄, functionSpelledAs d w → Cursor.Offers w c next →
    (function fuel ctx start).Yields c
      (fun d' => functionWithoutLines d' = functionWithoutLines d) next

def StatementsReadBack (statements : List Stmt) : Prop :=
  ∀ ⦃fuel w c⦄ ⦃next : Cursor⦄ ⦃close : Token⦄, close.kind = .rightBrace →
    statementsSpelledAs statements w → Cursor.Offers w c (next.push close) →
      (statementList fuel ctx).Yields c
        (fun ss => statementsWithoutLines ss = statementsWithoutLines statements)
        (next.push close)

def MethodsReadBack (methods : List (FunDecl Stmt)) : Prop :=
  ∀ ⦃fuel w c⦄ ⦃next : Cursor⦄ ⦃close : Token⦄, close.kind = .rightBrace →
    methodsSpelledAs methods w → Cursor.Offers w c (next.push close) →
      (methodList fuel ctx).Yields c
        (fun ds => methodsWithoutLines ds = methodsWithoutLines methods) (next.push close)

end

/-- A statement is read as a declaration, and by itself unless it is one. -/
structure StmtReadsBack (ctx : Context) (s : Stmt) : Prop where
  declaration : ReadByDeclaration ctx s
  statement : s.isDeclaration = false → ReadByStatement ctx s

namespace StmtReadsBack

variable {ctx : Context}

private theorem of_declaration {s : Stmt} (hd : s.isDeclaration = true)
    (h : ReadByDeclaration ctx s) : StmtReadsBack ctx s where
  declaration := h
  statement hs := by rw [hd] at hs; cases hs

/-- What is no declaration is handed on by the rule for declarations. -/
private theorem of_statement {s : Stmt} (hg : s.Grammatical ctx) (hd : s.isDeclaration = false)
    (h : ReadByStatement ctx s) : StmtReadsBack ctx s := by
  refine ⟨fun fuel w c next hs ho he => ?_, fun _ => h⟩
  obtain ⟨a, v, rfl, ha⟩ := spelledAs_head hg hd hs
  obtain ⟨t, mid, rfl, rfl, hv⟩ := id ho
  cases fuel with
  | zero => exact .inl rfl
  | succ fuel =>
    rw [Grammar.declaration]
    refine .step (accept?_push_ne (opensStatement_ne ha rfl)) ?_
    refine .step (accept?_push_ne (opensStatement_ne ha rfl)) ?_
    refine .step (accept?_push_ne (opensStatement_ne ha rfl)) ?_
    exact h hs ho he

theorem expression {e : Expr} {line : Nat} (hg : e.Grammatical ctx.inClass) :
    StmtReadsBack ctx (.expression e line) := by
  refine of_statement hg rfl ?_
  intro fuel w c next hs ho _
  cases hs
  obtain ⟨_, hexpr, hend⟩ := Cursor.Offers.append.1 ho
  obtain ⟨close, _, hc, rfl, rfl⟩ := hend.mark
  obtain ⟨t, _, rfl, ht⟩ := opens_of_offers hg hexpr.exact
  cases fuel with
  | zero => exact .inl rfl
  | succ fuel =>
    rw [Grammar.statement]
    refine .step (acceptSome?_push_none (opening?_none ht)) ?_
    apply (expression_yields hg hc endMark_semicolon hexpr).bind
    intro e' he
    exact .step (expect_push hc (by decide)) (.pure (congrArg (Stmt.expression · 0) he))

theorem print {e : Expr} {line : Nat} (hg : e.Grammatical ctx.inClass) :
    StmtReadsBack ctx (.print e line) := by
  refine of_statement hg rfl ?_
  intro fuel w c next hs ho _
  cases hs
  obtain ⟨t, _, hk, rfl, hin⟩ := ho.mark
  obtain ⟨_, hexpr, hend⟩ := Cursor.Offers.append.1 hin
  obtain ⟨close, _, hc, rfl, rfl⟩ := hend.mark
  cases fuel with
  | zero => exact .inl rfl
  | succ fuel =>
    rw [Grammar.statement]
    refine .step (acceptSome?_push (a := .print) (by rw [hk]; rfl)) ?_
    apply (expression_yields hg hc endMark_semicolon hexpr).bind
    intro e' he
    exact .step (expect_push hc (by decide)) (.pure (congrArg (Stmt.print · 0) he))

theorem loopExit {exit : LoopExit} {line : Nat} (hg : ctx.inLoop = true) :
    StmtReadsBack ctx (.loopExit exit line) := by
  refine of_statement hg rfl ?_
  intro fuel w c next hs ho _
  cases hs
  obtain ⟨t, _, hk, rfl, hend⟩ := ho.mark
  obtain ⟨close, _, hc, rfl, rfl⟩ := hend.mark
  obtain ⟨what, hopening⟩ : ∃ what, opening? exit.kind = some (.exit exit what) := by
    cases exit <;> exact ⟨_, rfl⟩
  cases fuel with
  | zero => exact .inl rfl
  | succ fuel =>
    rw [Grammar.statement]
    refine .step (acceptSome?_push (by rw [hk]; exact hopening)) ?_
    simp only [Grammar.loopExit, hg]
    exact .step (expect_push hc (by decide)) (.pure rfl)

theorem returns {value : Option Expr} {line : Nat} (hf : ctx.inFunction = true)
    (hg : optionalGrammatical ctx.inClass value) : StmtReadsBack ctx (.returns value line) := by
  refine of_statement ⟨hf, hg⟩ rfl ?_
  intro fuel w c next hs ho _
  cases hs
  obtain ⟨t, _, hk, rfl, hin⟩ := ho.mark
  obtain ⟨_, hvalue, hend⟩ := Cursor.Offers.append.1 hin
  obtain ⟨close, _, hc, rfl, rfl⟩ := hend.mark
  cases fuel with
  | zero => exact .inl rfl
  | succ fuel =>
    rw [Grammar.statement]
    refine .step (acceptSome?_push (a := .returns) (by rw [hk]; rfl)) ?_
    simp only [Grammar.returnStatement, hf]
    apply (unlessSees_yields hg hc endMark_semicolon hvalue).bind
    intro value' hv
    exact .step (expect_push hc (by decide)) (.pure (congrArg (Stmt.returns · 0) hv))

theorem var {decl : VarDecl} (hg : optionalGrammatical ctx.inClass decl.initializer) :
    StmtReadsBack ctx (.var decl) := by
  apply of_declaration rfl
  intro fuel w c next hs ho _
  cases hs
  obtain ⟨t, _, hk, rfl, hdecl⟩ := ho.mark
  cases fuel with
  | zero => exact .inl rfl
  | succ fuel =>
    rw [Grammar.declaration]
    refine .step (accept?_push_ne (by rw [hk]; decide)) ?_
    refine .step (accept?_push_ne (by rw [hk]; decide)) ?_
    refine .step (accept?_push hk (by decide)) ?_
    exact (varDeclaration_yields hg hdecl).bind fun d hd => .pure (congrArg Stmt.var hd)

theorem function {decl : FunDecl Stmt} (h : FunctionReadsBack ctx decl) :
    StmtReadsBack ctx (.function decl) := by
  apply of_declaration rfl
  intro fuel w c next hs ho _
  rcases hs with ⟨v, hv, rfl⟩
  obtain ⟨t, _, hk, rfl, hdecl⟩ := ho.mark
  cases fuel with
  | zero => exact .inl rfl
  | succ fuel =>
    rw [Grammar.declaration]
    refine .step (accept?_push_ne (by rw [hk]; decide)) ?_
    refine .step (accept?_push hk (by decide)) ?_
    exact (h hv hdecl).bind fun d hd => .pure (congrArg Stmt.function hd)

theorem classDecl {name : String} {methods : List (FunDecl Stmt)} {line : Nat}
    (h : MethodsReadBack ctx.enterClass methods) :
    StmtReadsBack ctx (.classDecl name methods line) := by
  apply of_declaration rfl
  intro fuel w c next hs ho _
  rcases hs with ⟨v, hv, rfl⟩
  obtain ⟨t, _, hk, rfl, hname⟩ := ho.mark
  obtain ⟨n, _, hn, rfl, rfl, hbrace⟩ := hname.identifier
  obtain ⟨brace, _, hb, rfl, hin⟩ := hbrace.mark
  obtain ⟨_, hmethods, hend⟩ := Cursor.Offers.append.1 hin
  obtain ⟨close, _, hc, rfl, rfl⟩ := hend.mark
  cases fuel with
  | zero => exact .inl rfl
  | succ fuel =>
    rw [Grammar.declaration]
    refine .step (accept?_push hk (by decide)) ?_
    cases fuel with
    | zero => exact .inl rfl
    | succ fuel =>
      simp only [Grammar.classDeclaration]
      refine .step (expect_push hn (by decide)) (.step (expect_push hb (by decide)) ?_)
      apply (h hc hv hmethods).bind
      intro methods' hm
      refine .step (expect_push hc (by decide)) (.pure ?_)
      exact congrArg (Stmt.classDecl n.lexeme · 0) hm

theorem block {statements : List Stmt} {line : Nat} (hg : statementsGrammatical ctx statements)
    (h : StatementsReadBack ctx statements) : StmtReadsBack ctx (.block statements line) := by
  refine of_statement hg rfl ?_
  intro fuel w c next hs ho _
  rcases hs with ⟨v, hv, rfl⟩
  obtain ⟨t, _, hk, rfl, hin⟩ := ho.mark
  obtain ⟨_, hstatements, hend⟩ := Cursor.Offers.append.1 hin
  obtain ⟨close, _, hc, rfl, rfl⟩ := hend.mark
  cases fuel with
  | zero => exact .inl rfl
  | succ fuel =>
    rw [Grammar.statement]
    refine .step (acceptSome?_push (a := .block) (by rw [hk]; rfl)) ?_
    apply (h hc hv hstatements).bind
    intro ss hss
    exact .step (expect_push hc (by decide)) (.pure (congrArg (Stmt.block · 0) hss))

/-- What both forms of `if` have in common. -/
private theorem ifStatement_yields {condition : Expr} {thenBranch : Stmt} {fuel line : Nat}
    {u : List Symbol} {c mid next : Cursor} {wanted : Stmt → Prop}
    (hg : condition.Grammatical ctx.inClass) (h : ReadByStatement ctx thenBranch)
    (hspell : thenBranch.SpelledAs u) (helse : thenBranch.takesElse → mid.sees .kwElse = false)
    (ho : Cursor.Offers (.mark .leftParen :: (condition.symbols ++ .mark .rightParen :: u)) c mid)
    (hrest : ∀ fuel condition' thenBranch', condition.Resembles condition' →
      thenBranch.Resembles thenBranch' →
        Rule.Yields (do
          match ← accept? .kwElse with
          | none => pure (.ifThen condition' thenBranch' line)
          | some _ =>
            let elseBranch ← Grammar.statement fuel ctx
            pure (.ifElse condition' thenBranch' elseBranch line)) mid wanted next) :
    (ifStatement fuel ctx line).Yields c wanted next := by
  obtain ⟨paren, _, hp, rfl, hin⟩ := ho.mark
  obtain ⟨_, hcondition, hbehind⟩ := Cursor.Offers.append.1 hin
  obtain ⟨close, _, hc, rfl, hthen⟩ := hbehind.mark
  cases fuel with
  | zero => exact .inl rfl
  | succ fuel =>
    rw [ifStatement]
    refine .step (expect_push hp (by decide)) ?_
    apply (expression_yields hg hc endMark_rightParen hcondition).bind
    intro condition' hc'
    refine .step (expect_push hc (by decide)) ?_
    exact (h hspell hthen helse).bind fun thenBranch' ht' => hrest fuel _ _ hc' ht'

theorem ifThen {condition : Expr} {thenBranch : Stmt} {line : Nat}
    (hg : (Stmt.ifThen condition thenBranch line).Grammatical ctx)
    (h : StmtReadsBack ctx thenBranch) : StmtReadsBack ctx (.ifThen condition thenBranch line) := by
  apply of_statement hg rfl
  intro fuel w c next hs ho helse
  rcases hg with ⟨hcondition, hd, -⟩
  rcases hs with ⟨v, hv, rfl⟩
  obtain ⟨t, _, hk, rfl, hin⟩ := ho.mark
  cases fuel with
  | zero => exact .inl rfl
  | succ fuel =>
    rw [Grammar.statement]
    refine .step (acceptSome?_push (a := .ifElse) (by rw [hk]; rfl)) ?_
    refine ifStatement_yields hcondition (h.statement hd) hv (fun _ => helse rfl) hin
      fun fuel condition' thenBranch' hc' ht' => ?_
    refine .step (accept?_of_not_sees (helse rfl)) (.pure ?_)
    simp only [Expr.Resembles, Stmt.Resembles, Stmt.withoutLines] at hc' ht' ⊢
    rw [hc', ht']

theorem ifElse {condition : Expr} {thenBranch elseBranch : Stmt} {line : Nat}
    (hg : (Stmt.ifElse condition thenBranch elseBranch line).Grammatical ctx)
    (h : StmtReadsBack ctx thenBranch) (h' : StmtReadsBack ctx elseBranch) :
    StmtReadsBack ctx (.ifElse condition thenBranch elseBranch line) := by
  apply of_statement hg rfl
  intro fuel w c next hs ho helse
  rcases hg with ⟨hcondition, ⟨hd, hopen, -⟩, hd', -⟩
  rcases hs with ⟨u, v, hu, hv, rfl⟩
  obtain ⟨t, _, hk, rfl, hin⟩ := ho.mark
  have hsplit : Symbol.mark .leftParen :: (condition.symbols ++ .mark .rightParen ::
      (u ++ .mark .kwElse :: v)) = (Symbol.mark .leftParen :: (condition.symbols ++
        .mark .rightParen :: u)) ++ .mark .kwElse :: v := by simp
  rw [hsplit] at hin
  obtain ⟨_, hif, hbehind⟩ := Cursor.Offers.append.1 hin
  obtain ⟨keyword, _, he, rfl, helseBranch⟩ := hbehind.mark
  cases fuel with
  | zero => exact .inl rfl
  | succ fuel =>
    rw [Grammar.statement]
    refine .step (acceptSome?_push (a := .ifElse) (by rw [hk]; rfl)) ?_
    refine ifStatement_yields hcondition (h.statement hd) hu (fun ht => by simp [hopen] at ht) hif
      fun fuel condition' thenBranch' hc' ht' => ?_
    refine .step (accept?_push he (by decide)) ?_
    refine (h'.statement hd' hv helseBranch helse).bind fun elseBranch' he' => .pure ?_
    simp only [Expr.Resembles, Stmt.Resembles, Stmt.withoutLines] at hc' ht' he' ⊢
    rw [hc', ht', he']

theorem whileLoop {condition : Expr} {body : Stmt} {line : Nat}
    (hg : (Stmt.whileLoop condition body line).Grammatical ctx)
    (h : StmtReadsBack ctx.enterLoop body) :
    StmtReadsBack ctx (.whileLoop condition body line) := by
  apply of_statement hg rfl
  intro fuel w c next hs ho helse
  rcases hg with ⟨hcondition, hd, -⟩
  rcases hs with ⟨v, hv, rfl⟩
  obtain ⟨t, _, hk, rfl, hparen⟩ := ho.mark
  obtain ⟨paren, _, hp, rfl, hin⟩ := hparen.mark
  obtain ⟨_, hcond, hbehind⟩ := Cursor.Offers.append.1 hin
  obtain ⟨close, _, hc, rfl, hbody⟩ := hbehind.mark
  cases fuel with
  | zero => exact .inl rfl
  | succ fuel =>
    rw [Grammar.statement]
    refine .step (acceptSome?_push (a := .whileLoop) (by rw [hk]; rfl)) ?_
    cases fuel with
    | zero => exact .inl rfl
    | succ fuel =>
      simp only [whileStatement]
      refine .step (expect_push hp (by decide)) ?_
      refine .bind (expression_yields hcondition hc endMark_rightParen hcond)
        fun condition' hc' => ?_
      refine .step (expect_push hc (by decide)) ?_
      refine (h.statement hd hv hbody helse).bind fun body' hb' => .pure ?_
      simp only [Expr.Resembles, Stmt.Resembles, Stmt.withoutLines] at hc' hb' ⊢
      rw [hc', hb']

theorem forLoop {init : ForInit} {condition increment : Option Expr} {body : Stmt} {line : Nat}
    (hg : (Stmt.forLoop init condition increment body line).Grammatical ctx)
    (h : StmtReadsBack ctx.enterLoop body) :
    StmtReadsBack ctx (.forLoop init condition increment body line) := by
  apply of_statement hg rfl
  intro fuel w c next hs ho helse
  rcases hg with ⟨⟨hinit, hcondition, hincrement⟩, hd, -⟩
  rcases hs with ⟨v, hv, rfl⟩
  obtain ⟨t, _, hk, rfl, hparen⟩ := ho.mark
  obtain ⟨paren, _, hp, rfl, hin⟩ := hparen.mark
  obtain ⟨_, hi, hclauses⟩ := Cursor.Offers.append.1 hin
  obtain ⟨_, hcond, hsemicolon⟩ := Cursor.Offers.append.1 hclauses
  obtain ⟨semicolon, _, hs, rfl, hlast⟩ := hsemicolon.mark
  obtain ⟨_, hincr, hclose⟩ := Cursor.Offers.append.1 hlast
  obtain ⟨close, _, hc, rfl, hbody⟩ := hclose.mark
  cases fuel with
  | zero => exact .inl rfl
  | succ fuel =>
    rw [Grammar.statement]
    refine .step (acceptSome?_push (a := .forLoop) (by rw [hk]; rfl)) ?_
    cases fuel with
    | zero => exact .inl rfl
    | succ fuel =>
      simp only [forStatement]
      refine .step (expect_push hp (by decide)) ?_
      refine .bind (forInit_yields hinit hi) ?_
      intro init' hi'
      refine .bind (unlessSees_yields hcondition hs endMark_semicolon hcond)
        fun condition' hc' => ?_
      refine .step (expect_push hs (by decide)) ?_
      refine .bind (unlessSees_yields hincrement hc endMark_rightParen hincr)
        fun increment' hincr' => ?_
      refine .step (expect_push hc (by decide)) ?_
      refine (h.statement hd hv hbody helse).bind fun body' hb' => .pure ?_
      simp only [Stmt.Resembles, Stmt.withoutLines] at hb' ⊢
      rw [hi', hc', hincr', hb']

end StmtReadsBack

/-- In front of statements, or of what follows them, there is no `else`. -/
theorem sees_else_of_statements {ctx : Context} {statements : List Stmt}
    (hg : statementsGrammatical ctx statements) {w : List Symbol}
    (hs : statementsSpelledAs statements w) {c next : Cursor} (ho : Cursor.Offers w c next)
    (hn : next.sees .kwElse = false) : c.sees .kwElse = false := by
  cases statements with
  | nil =>
    cases hs
    cases ho
    exact hn
  | cons s rest =>
    rcases hs with ⟨u, v, hu, -, rfl⟩
    obtain ⟨a, u', rfl, ha⟩ := spelledAs_declaration_head hg.1 hu
    rcases ho with ⟨t, mid, rfl, rfl, -⟩
    have hne : t.kind ≠ .kwElse := opensDeclaration_ne ha rfl
    simp [Cursor.sees, Cursor.push, hne]

theorem StatementsReadBack.nil {ctx : Context} : StatementsReadBack ctx [] := by
  intro fuel w c next close hclose hs ho
  cases hs
  cases ho
  cases fuel with
  | zero => exact .inl rfl
  | succ fuel =>
    rw [statementList]
    exact .step (sees_push hclose (by decide)) (.pure rfl)

theorem StatementsReadBack.cons {ctx : Context} {s : Stmt} {rest : List Stmt}
    (hg : statementsGrammatical ctx (s :: rest)) (h : StmtReadsBack ctx s)
    (ih : StatementsReadBack ctx rest) : StatementsReadBack ctx (s :: rest) := by
  intro fuel w c next close hclose hs ho
  rcases hs with ⟨u, v, hu, hv, rfl⟩
  obtain ⟨_, hfirst, hrest⟩ := Cursor.Offers.append.1 ho
  have helse := sees_else_of_statements hg.2 hv hrest (by simp [Cursor.sees, Cursor.push, hclose])
  obtain ⟨a, u', rfl, ha⟩ := spelledAs_declaration_head hg.1 hu
  obtain ⟨t, mid, rfl, rfl, -⟩ := id hfirst
  cases fuel with
  | zero => exact .inl rfl
  | succ fuel =>
    rw [statementList]
    refine .step (sees_push_ne (opensDeclaration_ne ha rfl)) ?_
    refine .step (atEnd_push (opensDeclaration_ne ha rfl)) ?_
    apply (h.declaration hu hfirst fun _ => helse).bind
    intro s' hs'
    refine (ih hclose hv hrest).bind fun rest' hr' => .pure ?_
    simp only [Stmt.Resembles, statementsWithoutLines] at hs' hr' ⊢
    rw [hs', hr']

theorem FunctionReadsBack.intro {ctx : Context} {decl : FunDecl Stmt}
    (hlen : decl.params.length ≤ Capped.limit) (hsite : decl.site = 0)
    (h : StatementsReadBack ctx.enterFunction decl.body) : FunctionReadsBack ctx decl := by
  intro fuel start w c next hs ho
  rcases decl with ⟨name, params, body, _, _⟩
  cases hsite
  rcases hs with ⟨v, hv, rfl⟩
  obtain ⟨n, _, hn, rfl, rfl, hparen⟩ := ho.identifier
  obtain ⟨paren, _, hp, rfl, hin⟩ := hparen.mark
  obtain ⟨_, hparams, hclose⟩ := Cursor.Offers.append.1 hin
  obtain ⟨close, _, hc, rfl, hbrace⟩ := hclose.mark
  obtain ⟨brace, _, hb, rfl, hbody⟩ := hbrace.mark
  obtain ⟨_, hstatements, hend⟩ := Cursor.Offers.append.1 hbody
  obtain ⟨last, _, hl, rfl, rfl⟩ := hend.mark
  cases fuel with
  | zero => exact .inl rfl
  | succ fuel =>
    simp only [Grammar.function, choice_bind]
    refine .step (expect_push hn (by decide)) (.step (expect_push hp (by decide)) ?_)
    refine .step rfl ((parametersUpToEnd_yields hc hlen hparams).bind fun params' hp' => ?_)
    refine .step (expect_push hc (by decide)) (.step (expect_push hb (by decide)) ?_)
    apply (h hl hv hstatements).bind
    intro body' hbody'
    refine .step (expect_push hl (by decide)) (.pure ?_)
    simp only [functionWithoutLines]
    rw [hp', hbody']

theorem MethodsReadBack.nil {ctx : Context} : MethodsReadBack ctx [] := by
  intro fuel w c next close hclose hs ho
  cases hs
  cases ho
  cases fuel with
  | zero => exact .inl rfl
  | succ fuel =>
    rw [methodList]
    exact .step (sees_push hclose (by decide)) (.pure rfl)

theorem MethodsReadBack.cons {ctx : Context} {d : FunDecl Stmt} {rest : List (FunDecl Stmt)}
    (h : FunctionReadsBack ctx d) (ih : MethodsReadBack ctx rest) :
    MethodsReadBack ctx (d :: rest) := by
  intro fuel w c next close hclose hs ho
  rcases hs with ⟨u, v, hu, hv, rfl | rfl⟩
  · obtain ⟨_, hfirst, hrest⟩ := Cursor.Offers.append.1 ho
    have hnamed : ∃ name u', u = .identifier name :: u' := by
      rcases d with ⟨name, _, _, _, _⟩
      rcases hu with ⟨_, -, rfl⟩
      exact ⟨name, _, rfl⟩
    rcases hnamed with ⟨name, u', rfl⟩
    obtain ⟨n, _, hn, -, rfl, -⟩ := hfirst.identifier
    cases fuel with
    | zero => exact .inl rfl
    | succ fuel =>
      rw [methodList]
      refine .step (sees_push_ne (by rw [hn]; decide)) ?_
      refine .step (atEnd_push (by rw [hn]; decide)) ?_
      refine .step (accept?_push_ne (by rw [hn]; decide)) ?_
      refine .step (sees_push hn (by decide)) ?_
      refine (h hu hfirst).bind fun d' hd => (ih hclose hv hrest).bind fun rest' hr => .pure ?_
      simp only [methodsWithoutLines] at hr ⊢
      rw [hd, hr]
  · obtain ⟨keyword, _, hk, rfl, hin⟩ := ho.mark
    obtain ⟨_, hfirst, hrest⟩ := Cursor.Offers.append.1 hin
    cases fuel with
    | zero => exact .inl rfl
    | succ fuel =>
      rw [methodList]
      refine .step (sees_push_ne (by rw [hk]; decide)) ?_
      refine .step (atEnd_push (by rw [hk]; decide)) ?_
      refine .step (accept?_push hk (by decide)) ?_
      refine (h hu hfirst).bind fun d' hd => (ih hclose hv hrest).bind fun rest' hr => .pure ?_
      simp only [methodsWithoutLines] at hr ⊢
      rw [hd, hr]

mutual
theorem stmtReadsBack : {ctx : Context} → (s : Stmt) → s.Grammatical ctx → StmtReadsBack ctx s
  | _, .expression _ _, h => .expression h
  | _, .print _ _, h => .print h
  | _, .var _, h => .var h
  | _, .function decl, h => .function (functionReadsBack decl h)
  | _, .classDecl _ methods _, h => .classDecl (methodsReadBack methods h)
  | _, .block statements _, h => .block h (statementsReadBack statements h)
  | _, .ifThen _ thenBranch _, h => .ifThen h (stmtReadsBack thenBranch h.2.2)
  | _, .ifElse _ thenBranch elseBranch _, h =>
    .ifElse h (stmtReadsBack thenBranch h.2.1.2.2) (stmtReadsBack elseBranch h.2.2.2)
  | _, .whileLoop _ body _, h => .whileLoop h (stmtReadsBack body h.2.2)
  | _, .forLoop _ _ _ body _, h => .forLoop h (stmtReadsBack body h.2.2)
  | _, .loopExit _ _, h => .loopExit h
  | _, .returns _ _, ⟨hf, h⟩ => .returns hf h

theorem statementsReadBack : {ctx : Context} → (statements : List Stmt) →
    statementsGrammatical ctx statements → StatementsReadBack ctx statements
  | _, [], _ => .nil
  | _, s :: rest, h => .cons h (stmtReadsBack s h.1) (statementsReadBack rest h.2)

theorem functionReadsBack : {ctx : Context} → (decl : FunDecl Stmt) →
    functionGrammatical ctx decl → FunctionReadsBack ctx decl
  | _, ⟨_, _, body, _, _⟩, ⟨hlen, h, hsite⟩ => .intro hlen hsite (statementsReadBack body h)

theorem methodsReadBack : {ctx : Context} → (methods : List (FunDecl Stmt)) →
    methodsGrammatical ctx methods → MethodsReadBack ctx methods
  | _, [], _ => .nil
  | _, d :: rest, ⟨h, hrest⟩ => .cons (functionReadsBack d h) (methodsReadBack rest hrest)
end

end Lox.Grammar
