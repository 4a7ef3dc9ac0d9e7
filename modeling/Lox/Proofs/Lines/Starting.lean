import Lox.Proofs.Lines.Origins

/-! Every node of a program that is read without a report has the line of its first token. -/
namespace Lox.Grammar

section
variable {fuel : Nat} {ctx : Context} {b c next : Cursor} {line : Nat}

theorem unlessSees_spans {kind : Kind} {e? : Option Expr}
    (h : unlessSees kind (expression fuel ctx) c = .done e? next) :
    c.Spans next (optionalOrigins e?) := by
  simp only [unlessSees, Rule.bind_eq_done_iff] at h
  obtain ⟨seen, _, hs, h⟩ := h
  obtain ⟨rfl, -⟩ := sees_done hs
  cases seen with
  | true =>
    cases h
    exact .nothing _
  | false =>
    obtain ⟨e, _, he, h⟩ := Rule.bind_eq_done_iff.1 h
    cases h
    exact (expressionsSpan fuel).expression he

theorem varDeclaration_spans {decl : VarDecl}
    (hkeyword : b.Spans c (Kind.kwVar.origins ⊓ startingOn line))
    (h : varDeclaration fuel ctx line c = .done decl next) : b.Spans next decl.origins := by
  simp only [varDeclaration, Rule.bind_eq_done_iff] at h
  obtain ⟨name, mid, hn, sign?, behind, hs, h⟩ := h
  have hname := hkeyword.goOn (expect_done hn).nameSpans
  cases sign? with
  | none =>
    obtain ⟨rfl, -⟩ := accept?_none hs
    simp only [Rule.bind_eq_done_iff] at h
    obtain ⟨_, _, hi, close, _, hc, h⟩ := h
    cases hi
    cases h
    exact (hname.goOn (.nothing _)).goOn (expect_done hc).kindSpans
  | some sign =>
    simp only [Rule.bind_eq_done_iff] at h
    obtain ⟨value, _, hv, _, _, hi, close, _, hc, h⟩ := h
    cases hi
    cases h
    have hvalue := (accept?_some hs).kindSpans.trans ((expressionsSpan fuel).expression hv)
    exact (hname.goOn hvalue).goOn (expect_done hc).kindSpans

theorem forInit_spans {init : ForInit} (h : forInit fuel ctx c = .done init next) :
    c.Spans next init.origins := by
  simp only [forInit, Rule.bind_eq_done_iff] at h
  obtain ⟨semicolon?, _, hs, h⟩ := h
  cases semicolon? with
  | some semicolon =>
    cases h
    exact (accept?_some hs).kindSpans
  | none =>
  obtain ⟨rfl, -⟩ := accept?_none hs
  simp only [Rule.bind_eq_done_iff] at h
  obtain ⟨var?, _, hv, h⟩ := h
  cases var? with
  | some keyword =>
    simp only [Rule.bind_eq_done_iff] at h
    obtain ⟨decl, _, hd, h⟩ := h
    cases h
    exact varDeclaration_spans (accept?_some hv).kindStarts hd
  | none =>
    obtain ⟨rfl, -⟩ := accept?_none hv
    simp only [Rule.bind_eq_done_iff] at h
    obtain ⟨value, _, he, close, _, hc, h⟩ := h
    cases h
    exact ((expressionsSpan fuel).expression he).trans (expect_done hc).kindSpans

theorem parameterList_spans {taken : Nat} {params : List String}
    (h : parameterList fuel taken c = .done params next) :
    params ≠ [] ∧ c.Spans next (parameterOrigins params) := by
  induction fuel generalizing taken c params with
  | zero => cases h
  | succ fuel ih =>
    rw [parameterList, optional_bind] at h
    simp only [Rule.bind_eq_done_iff] at h
    obtain ⟨_, _, hcheck, param, _, hp, comma?, _, hcomma, h⟩ := h
    have hfirst := (lengthCheck_spans hcheck).trans (expect_done hp).nameSpans
    rw [one_mul] at hfirst
    cases comma? with
    | none =>
      cases h
      obtain ⟨rfl, -⟩ := accept?_none hcomma
      exact ⟨by simp, by simpa [parameterOrigins] using hfirst⟩
    | some comma =>
      simp only [Rule.bind_eq_done_iff] at h
      obtain ⟨more, _, hm, h⟩ := h
      cases h
      obtain ⟨hne, hmore⟩ := ih hm
      refine ⟨by simp, ?_⟩
      obtain ⟨second, rest, rfl⟩ := List.exists_cons_of_ne_nil hne
      have hall := hfirst.trans ((accept?_some hcomma).kindSpans.trans hmore)
      simpa [parameterOrigins] using hall

/-- The list between the parentheses of a function, which may be empty. -/
theorem parametersUpToEnd_spans {params : List String} {seen : Bool}
    (h : (if seen = true then pure [] else parameterList fuel 0) c = .done params next) :
    c.Spans next (parameterOrigins params) := by
  cases seen with
  | true =>
    cases h
    exact .nothing _
  | false => exact (parameterList_spans h).2

/-! Statements behind their keyword, which begins what they span. -/

theorem loopExit_spans {exit : LoopExit} {close : Expected} {s : Stmt}
    (hkeyword : b.Spans c (exit.kind.origins ⊓ startingOn line))
    (h : loopExit ctx exit close line c = .done s next) : b.Spans next s.origins := by
  cases hloop : ctx.inLoop with
  | false => simp [loopExit, hloop, fault] at h
  | true =>
    simp only [loopExit, hloop, Bool.not_true, Bool.false_eq_true, if_false,
      Rule.bind_eq_done_iff] at h
    obtain ⟨_, _, hc, h⟩ := h
    cases h
    exact hkeyword.goOn (expect_done hc).kindSpans

theorem returnStatement_spans {s : Stmt}
    (hkeyword : b.Spans c (Kind.kwReturn.origins ⊓ startingOn line))
    (h : returnStatement fuel ctx line c = .done s next) : b.Spans next s.origins := by
  cases hfun : ctx.inFunction with
  | false => simp [returnStatement, hfun, fault] at h
  | true =>
    simp only [returnStatement, hfun, Bool.not_true, Bool.false_eq_true, if_false,
      Rule.bind_eq_done_iff] at h
    obtain ⟨value, _, hv, _, _, hc, h⟩ := h
    cases h
    exact (hkeyword.goOn (unlessSees_spans hv)).goOn (expect_done hc).kindSpans

theorem printStatement_spans {s : Stmt}
    (hkeyword : b.Spans c (Kind.kwPrint.origins ⊓ startingOn line))
    (h : printStatement fuel ctx line c = .done s next) : b.Spans next s.origins := by
  simp only [printStatement, Rule.bind_eq_done_iff] at h
  obtain ⟨value, _, hv, _, _, hc, h⟩ := h
  cases h
  exact (hkeyword.goOn ((expressionsSpan fuel).expression hv)).goOn (expect_done hc).kindSpans

theorem expressionStatement_spans {s : Stmt}
    (h : expressionStatement fuel ctx c = .done s next) : c.Spans next s.origins := by
  simp only [expressionStatement, Rule.bind_eq_done_iff] at h
  obtain ⟨value, _, hv, _, _, hc, h⟩ := h
  cases h
  exact ((expressionsSpan fuel).expression hv).lined.goOn (expect_done hc).kindSpans

end

/-- What stands in front of a function's name: nothing, or a `fun` on the given line. -/
def frontOrigins : Option Nat → Language Token
  | none => 1
  | some line => Kind.kwFun.origins ⊓ startingOn line

/-- A function begins with its front, or else with its name. -/
theorem Cursor.Spans.named {b c next : Cursor} {start : Option Nat} {name : Token}
    (hfront : b.Spans c (frontOrigins start)) (hname : c.Takes .identifier name next)
    {front : Language Token} (hle : frontOrigins start ≤ front) :
    b.Spans next (front * nameOrigins name.lexeme ⊓ startingOn (start.getD name.line)) := by
  cases start with
  | none =>
    have hboth := hfront.trans hname.nameStarts
    rw [frontOrigins, one_mul] at hboth
    refine hboth.mono (inf_le_inf_right _ ?_)
    calc nameOrigins name.lexeme
      _ = 1 * nameOrigins name.lexeme := (one_mul _).symm
      _ ≤ front * nameOrigins name.lexeme := by gcongr; exact hle
  | some line =>
    refine Cursor.Spans.goOn (hfront.mono (le_inf hle inf_le_right)) hname.nameSpans

/-- What every rule for statements takes with some fuel. -/
structure StatementsSpan (fuel : Nat) : Prop where
  declaration {ctx : Context} {c next : Cursor} {s : Stmt} :
    declaration fuel ctx c = .done s next → c.Spans next s.origins
  classDeclaration {ctx : Context} {line : Nat} {b c next : Cursor} {s : Stmt}
      (hkeyword : b.Spans c (Kind.kwClass.origins ⊓ startingOn line)) :
    classDeclaration fuel ctx line c = .done s next → b.Spans next s.origins
  methodList {ctx : Context} {c next : Cursor} {methods : List (FunDecl Stmt)} :
    methodList fuel ctx c = .done methods next → c.Spans next (methodsOrigins methods)
  function {ctx : Context} {start : Option Nat} {b c next : Cursor} {decl : FunDecl Stmt}
      {front : Language Token} (hfront : b.Spans c (frontOrigins start))
      (hle : frontOrigins start ≤ front) :
    function fuel ctx start c = .done decl next → b.Spans next (functionOrigins front decl)
  statementList {ctx : Context} {c next : Cursor} {statements : List Stmt} :
    statementList fuel ctx c = .done statements next →
      c.Spans next (statementsOrigins statements)
  statement {ctx : Context} {c next : Cursor} {s : Stmt} :
    statement fuel ctx c = .done s next → c.Spans next s.origins
  forStatement {ctx : Context} {line : Nat} {b c next : Cursor} {s : Stmt}
      (hkeyword : b.Spans c (Kind.kwFor.origins ⊓ startingOn line)) :
    forStatement fuel ctx line c = .done s next → b.Spans next s.origins
  whileStatement {ctx : Context} {line : Nat} {b c next : Cursor} {s : Stmt}
      (hkeyword : b.Spans c (Kind.kwWhile.origins ⊓ startingOn line)) :
    whileStatement fuel ctx line c = .done s next → b.Spans next s.origins
  ifStatement {ctx : Context} {line : Nat} {b c next : Cursor} {s : Stmt}
      (hkeyword : b.Spans c (Kind.kwIf.origins ⊓ startingOn line)) :
    ifStatement fuel ctx line c = .done s next → b.Spans next s.origins

namespace StatementsSpan

variable {fuel : Nat} {ctx : Context} {b c next : Cursor} {s : Stmt} {line : Nat}

theorem zero : StatementsSpan 0 where
  declaration h := by cases h
  classDeclaration _ h := by cases h
  methodList h := by cases h
  function _ _ h := by cases h
  statementList h := by cases h
  statement h := by cases h
  forStatement _ h := by cases h
  whileStatement _ h := by cases h
  ifStatement _ h := by cases h

theorem declaration_succ (ih : StatementsSpan fuel)
    (h : Grammar.declaration (fuel + 1) ctx c = .done s next) : c.Spans next s.origins := by
  simp only [Grammar.declaration, Rule.bind_eq_done_iff] at h
  obtain ⟨class?, _, hc, h⟩ := h
  cases class? with
  | some keyword => exact ih.classDeclaration (accept?_some hc).kindStarts h
  | none =>
  obtain ⟨rfl, -⟩ := accept?_none hc
  simp only [Rule.bind_eq_done_iff] at h
  obtain ⟨fun?, _, hf, h⟩ := h
  cases fun? with
  | some keyword =>
    simp only [Rule.bind_eq_done_iff] at h
    obtain ⟨decl, _, hd, h⟩ := h
    cases h
    exact ih.function (accept?_some hf).kindStarts inf_le_left hd
  | none =>
  obtain ⟨rfl, -⟩ := accept?_none hf
  simp only [Rule.bind_eq_done_iff] at h
  obtain ⟨var?, _, hv, h⟩ := h
  cases var? with
  | some keyword =>
    simp only [Rule.bind_eq_done_iff] at h
    obtain ⟨decl, _, hd, h⟩ := h
    cases h
    exact varDeclaration_spans (accept?_some hv).kindStarts hd
  | none =>
    obtain ⟨rfl, -⟩ := accept?_none hv
    exact ih.statement h

theorem classDeclaration_succ (ih : StatementsSpan fuel)
    (hkeyword : b.Spans c (Kind.kwClass.origins ⊓ startingOn line))
    (h : Grammar.classDeclaration (fuel + 1) ctx line c = .done s next) :
    b.Spans next s.origins := by
  simp only [Grammar.classDeclaration, Rule.bind_eq_done_iff] at h
  obtain ⟨name, _, hn, _, _, ho, methods, _, hm, _, _, hc, h⟩ := h
  cases h
  exact (((hkeyword.goOn (expect_done hn).nameSpans).goOn (expect_done ho).kindSpans).goOn
    (ih.methodList hm)).goOn (expect_done hc).kindSpans

theorem methodList_succ (ih : StatementsSpan fuel) {methods : List (FunDecl Stmt)}
    (h : Grammar.methodList (fuel + 1) ctx c = .done methods next) :
    c.Spans next (methodsOrigins methods) := by
  simp only [Grammar.methodList, Rule.bind_eq_done_iff] at h
  obtain ⟨closed, _, hs, h⟩ := h
  obtain ⟨rfl, -⟩ := sees_done hs
  cases closed with
  | true =>
    cases h
    exact .nothing _
  | false =>
  simp only [Bool.false_eq_true, if_false, Rule.bind_eq_done_iff] at h
  obtain ⟨ended, _, he, h⟩ := h
  obtain ⟨rfl, -⟩ := atEnd_done he
  cases ended with
  | true => cases h
  | false =>
  simp only [Bool.false_eq_true, if_false, Rule.bind_eq_done_iff] at h
  obtain ⟨fun?, _, hf, h⟩ := h
  cases fun? with
  | some keyword =>
    simp only [Rule.bind_eq_done_iff] at h
    obtain ⟨method, _, hm, more, _, hmore, h⟩ := h
    cases h
    have hfront : frontOrigins (some keyword.line) ≤ 1 + Kind.kwFun.origins :=
      inf_le_left.trans fun _ => .inr
    exact (ih.function (accept?_some hf).kindStarts hfront hm).trans (ih.methodList hmore)
  | none =>
    obtain ⟨rfl, -⟩ := accept?_none hf
    simp only [choice_bind, Rule.bind_eq_done_iff] at h
    obtain ⟨named, _, hn, method, _, hm, more, _, hmore, h⟩ := h
    obtain ⟨rfl, -⟩ := sees_done hn
    cases named with
    | false => cases hm
    | true =>
      cases h
      have hnone (c : Cursor) : c.Spans c (frontOrigins none) := .nothing c
      have hfront : frontOrigins none ≤ 1 + Kind.kwFun.origins := fun _ => .inl
      exact (ih.function (hnone _) hfront hm).trans (ih.methodList hmore)

theorem function_succ (ih : StatementsSpan fuel) {start : Option Nat} {decl : FunDecl Stmt}
    {front : Language Token} (hfront : b.Spans c (frontOrigins start))
    (hle : frontOrigins start ≤ front)
    (h : Grammar.function (fuel + 1) ctx start c = .done decl next) :
    b.Spans next (functionOrigins front decl) := by
  simp only [Grammar.function, choice_bind, Rule.bind_eq_done_iff] at h
  obtain ⟨name, _, hn, _, _, ho, seen, _, hs, params, _, hp, _, _, hc, _, _, hb, body, _, hbody,
    _, _, he, h⟩ := h
  cases h
  obtain ⟨rfl, -⟩ := sees_done hs
  have hparams := ((hfront.named (expect_done hn) hle).goOn (expect_done ho).kindSpans).goOn
    (parametersUpToEnd_spans hp)
  have hbrace := (hparams.goOn (expect_done hc).kindSpans).goOn (expect_done hb).kindSpans
  exact (hbrace.goOn (ih.statementList hbody)).goOn (expect_done he).kindSpans

theorem statementList_succ (ih : StatementsSpan fuel) {statements : List Stmt}
    (h : Grammar.statementList (fuel + 1) ctx c = .done statements next) :
    c.Spans next (statementsOrigins statements) := by
  simp only [Grammar.statementList, Rule.bind_eq_done_iff] at h
  obtain ⟨closed, _, hs, h⟩ := h
  obtain ⟨rfl, -⟩ := sees_done hs
  cases closed with
  | true =>
    cases h
    exact .nothing _
  | false =>
  simp only [Bool.false_eq_true, if_false, Rule.bind_eq_done_iff] at h
  obtain ⟨ended, _, he, h⟩ := h
  obtain ⟨rfl, -⟩ := atEnd_done he
  cases ended with
  | true =>
    cases h
    exact .nothing _
  | false =>
    simp only [Bool.false_eq_true, if_false, Rule.bind_eq_done_iff] at h
    obtain ⟨first, _, hf, more, _, hm, h⟩ := h
    cases h
    exact (ih.declaration hf).trans (ih.statementList hm)

theorem statement_succ (ih : StatementsSpan fuel)
    (h : Grammar.statement (fuel + 1) ctx c = .done s next) : c.Spans next s.origins := by
  simp only [Grammar.statement, Rule.bind_eq_done_iff] at h
  obtain ⟨found?, _, hf, h⟩ := h
  cases found? with
  | none =>
    cases acceptSome?_none hf
    exact expressionStatement_spans h
  | some found =>
    obtain ⟨opening, t⟩ := found
    obtain ⟨ho, ht⟩ := acceptSome?_some rfl hf
    rw [← opening?_kind ho] at ht
    have hkeyword := ht.kindStarts
    cases opening with
    | forLoop => exact ih.forStatement hkeyword h
    | ifElse => exact ih.ifStatement hkeyword h
    | whileLoop => exact ih.whileStatement hkeyword h
    | returns => exact returnStatement_spans hkeyword h
    | exit e close => exact loopExit_spans hkeyword h
    | print => exact printStatement_spans hkeyword h
    | block =>
      simp only [Rule.bind_eq_done_iff] at h
      obtain ⟨statements, _, hs, _, _, he, h⟩ := h
      cases h
      exact (hkeyword.goOn (ih.statementList hs)).goOn (expect_done he).kindSpans

theorem forStatement_succ (ih : StatementsSpan fuel)
    (hkeyword : b.Spans c (Kind.kwFor.origins ⊓ startingOn line))
    (h : Grammar.forStatement (fuel + 1) ctx line c = .done s next) : b.Spans next s.origins := by
  simp only [Grammar.forStatement, Rule.bind_eq_done_iff] at h
  obtain ⟨_, _, ho, init, _, hi, condition, _, hc, _, _, hsemi, increment, _, hn, _, _, hclose,
    body, _, hb, h⟩ := h
  cases h
  have hinit := (hkeyword.goOn (expect_done ho).kindSpans).goOn (forInit_spans hi)
  have hcondition := (hinit.goOn (unlessSees_spans hc)).goOn (expect_done hsemi).kindSpans
  have hincrement := (hcondition.goOn (unlessSees_spans hn)).goOn (expect_done hclose).kindSpans
  exact hincrement.goOn (ih.statement hb)

theorem whileStatement_succ (ih : StatementsSpan fuel)
    (hkeyword : b.Spans c (Kind.kwWhile.origins ⊓ startingOn line))
    (h : Grammar.whileStatement (fuel + 1) ctx line c = .done s next) :
    b.Spans next s.origins := by
  simp only [Grammar.whileStatement, Rule.bind_eq_done_iff] at h
  obtain ⟨_, _, ho, condition, _, hc, _, _, hclose, body, _, hb, h⟩ := h
  cases h
  have hcondition := (hkeyword.goOn (expect_done ho).kindSpans).goOn
    ((expressionsSpan fuel).expression hc)
  exact (hcondition.goOn (expect_done hclose).kindSpans).goOn (ih.statement hb)

theorem ifStatement_succ (ih : StatementsSpan fuel)
    (hkeyword : b.Spans c (Kind.kwIf.origins ⊓ startingOn line))
    (h : Grammar.ifStatement (fuel + 1) ctx line c = .done s next) : b.Spans next s.origins := by
  simp only [Grammar.ifStatement, Rule.bind_eq_done_iff] at h
  obtain ⟨_, _, ho, condition, _, hc, _, _, hclose, thenBranch, mid, ht, else?, _, he, h⟩ := h
  have hcondition := (hkeyword.goOn (expect_done ho).kindSpans).goOn
    ((expressionsSpan fuel).expression hc)
  have hthen := (hcondition.goOn (expect_done hclose).kindSpans).goOn (ih.statement ht)
  cases else? with
  | none =>
    cases h
    obtain ⟨rfl, -⟩ := accept?_none he
    exact hthen
  | some keyword =>
    simp only [Rule.bind_eq_done_iff] at h
    obtain ⟨elseBranch, _, hb, h⟩ := h
    cases h
    exact (hthen.goOn (accept?_some he).kindSpans).goOn (ih.statement hb)

end StatementsSpan

theorem statementsSpan (fuel : Nat) : StatementsSpan fuel := by
  induction fuel with
  | zero => exact .zero
  | succ fuel ih =>
    exact {
      declaration := ih.declaration_succ
      classDeclaration := ih.classDeclaration_succ
      methodList := ih.methodList_succ
      function := ih.function_succ
      statementList := ih.statementList_succ
      statement := ih.statement_succ
      forStatement := ih.forStatement_succ
      whileStatement := ih.whileStatement_succ
      ifStatement := ih.ifStatement_succ }

theorem program_spans {fuel : Nat} {c : Cursor} {p : Parsed} (h : program fuel c = some p)
    (hq : p.diagnostics = []) :
    ∃ last, last.atEnd ∧ c.Spans last (statementsOrigins p.statements) := by
  induction fuel generalizing c p with
  | zero => cases h
  | succ fuel ih =>
    rw [program] at h
    split at h
    next hend =>
      cases h
      exact ⟨c, hend, .nothing c⟩
    cases hd : declaration fuel .top c with
    | done s next =>
      rw [hd] at h
      obtain ⟨rest, hr, rfl⟩ := Option.map_eq_some_iff.1 h
      obtain ⟨last, hend, hspans⟩ := ih hr hq
      exact ⟨last, hend, ((statementsSpan fuel).declaration hd).trans hspans⟩
    | failed fault reports =>
      rw [hd] at h
      cases h
      simp at hq
    | outOfFuel =>
      rw [hd] at h
      cases h

/-- The tokens in front of the mark of the end are shared out among the nodes of the program so that
each node has the line of the first of its own tokens. They cannot be shared out in another way
(`statementsOrigins_prefixFree`). -/
theorem parse_starting {tokens : List Token} (hq : (parse tokens).diagnostics = []) :
    body tokens ∈ statementsOrigins (parse tokens).statements := by
  obtain ⟨last, hend, used, hu, hr, hi⟩ := program_spans (program_eq_parse tokens) hq
  have hr : tokens = used ++ last.rest := hr
  rw [hr, body_append hi hend, ← hr]
  exact hu

/-- A call of a property on falling lines, in a method with `fun` and in one without. -/
def fallingSample : List Token :=
  let word (kind : Kind) (line : Nat) : Token := ⟨kind, "", .nil, line⟩
  let name (lexeme : String) (line : Nat) : Token := ⟨.identifier, lexeme, .nil, line⟩
  [word .kwClass 9, name "A" 3, word .leftBrace 3,
   word .kwFun 8, name "m" 7, word .leftParen 7, word .rightParen 7, word .leftBrace 7,
   name "x" 6, word .dot 5, name "y" 4, word .leftParen 3, word .rightParen 2,
   word .plus 1, ⟨.number, "1", .number 1, 12⟩, word .semicolon 1, word .rightBrace 1,
   name "n" 2, word .leftParen 5, word .rightParen 5, word .leftBrace 5, word .rightBrace 5,
   word .rightBrace 1, word .eof 0]

theorem parse_starting_falling :
    (parse fallingSample).diagnostics = [] ∧
      body fallingSample ∈ statementsOrigins (parse fallingSample).statements :=
  have hq : (parse fallingSample).diagnostics = [] := by rfl
  ⟨hq, parse_starting hq⟩

end Lox.Grammar
