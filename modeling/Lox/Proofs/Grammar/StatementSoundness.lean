import Lox.Proofs.Grammar.ExpressionSoundness

/-! A statement that is read obeys the grammar and is spelled by the tokens that it took. -/
namespace Lox.Grammar

section
variable {fuel : Nat} {ctx : Context} {c next : Cursor}

theorem unlessSees_reads {kind : Kind} {e? : Option Expr}
    (h : unlessSees kind (expression fuel ctx) c = .done e? next) :
    c.Reads 0 next (· = optionalSymbols e?) (optionalGrammatical ctx.inClass e?) := by
  simp only [unlessSees, Rule.bind_eq_done_iff] at h
  rcases h with ⟨seen, _, hs, h⟩
  obtain ⟨rfl, -⟩ := sees_done hs
  cases seen with
  | true =>
    cases h
    exact (Cursor.Reads.nothing _).weaken (Nat.le_refl _) (fun _ => id) fun _ => trivial
  | false =>
    obtain ⟨e, _, he, h⟩ := Rule.bind_eq_done_iff.1 h
    cases h
    exact ((expressionsSound fuel).expression he).weaken (Nat.zero_le _) (fun _ => id) id

theorem varDeclaration_reads {line : Nat} {decl : VarDecl}
    (h : varDeclaration fuel ctx line c = .done decl next) :
    c.Reads 1 next (· = decl.symbols) (optionalGrammatical ctx.inClass decl.initializer) := by
  simp only [varDeclaration, Rule.bind_eq_done_iff] at h
  rcases h with ⟨name, mid, hn, sign?, behind, hs, h⟩
  cases sign? with
  | none =>
    obtain ⟨rfl, -⟩ := accept?_none hs
    simp only [Rule.bind_eq_done_iff] at h
    rcases h with ⟨_, _, hi, close, _, hc, h⟩
    cases hi
    cases h
    refine ((expect_done hn).identifier.trans ((expect_done hc).mark rfl)).weaken
      (by omega) ?_ ?_
    · rintro _ ⟨_, _, rfl, rfl, rfl⟩
      simp [VarDecl.symbols]
    · exact fun _ => trivial
  | some sign =>
    simp only [Rule.bind_eq_done_iff] at h
    rcases h with ⟨value, _, hv, _, _, hi, close, _, hc, h⟩
    cases hi
    cases h
    refine ((expect_done hn).identifier.trans (((accept?_some hs).mark rfl).trans
      (((expressionsSound fuel).expression hv).trans ((expect_done hc).mark rfl)))).weaken
      (by omega) ?_ ?_
    · rintro _ ⟨_, _, rfl, ⟨_, _, rfl, ⟨_, _, rfl, rfl, rfl⟩, rfl⟩, rfl⟩
      simp [VarDecl.symbols]
    · exact fun hg => hg.2.2.1

theorem forInit_reads {init : ForInit} (h : forInit fuel ctx c = .done init next) :
    c.Reads 1 next (· = init.symbols) (init.Grammatical ctx.inClass) := by
  simp only [forInit, Rule.bind_eq_done_iff] at h
  rcases h with ⟨semicolon?, _, hs, h⟩
  cases semicolon? with
  | some semicolon =>
    cases h
    exact ((accept?_some hs).mark rfl).weaken (Nat.le_refl _) (fun _ => id) fun _ => trivial
  | none =>
  obtain ⟨rfl, -⟩ := accept?_none hs
  simp only [Rule.bind_eq_done_iff] at h
  rcases h with ⟨var?, _, hv, h⟩
  cases var? with
  | some keyword =>
    simp only [Rule.bind_eq_done_iff] at h
    rcases h with ⟨decl, _, hd, h⟩
    cases h
    refine (((accept?_some hv).mark rfl).trans (varDeclaration_reads hd)).weaken (by omega) ?_ ?_
    · rintro _ ⟨_, _, rfl, rfl, rfl⟩
      simp [ForInit.symbols]
    · exact And.right
  | none =>
    obtain ⟨rfl, -⟩ := accept?_none hv
    simp only [Rule.bind_eq_done_iff] at h
    rcases h with ⟨value, _, he, close, _, hc, h⟩
    cases h
    refine (((expressionsSound fuel).expression he).trans ((expect_done hc).mark rfl)).weaken
      (by omega) ?_ ?_
    · rintro _ ⟨_, _, rfl, rfl, rfl⟩
      simp [ForInit.symbols]
    · exact And.left

theorem parameterList_reads {taken : Nat} {params : List String}
    (h : parameterList fuel taken c = .done params next) :
    params ≠ [] ∧ c.Reads 1 next (· = parameterSymbols params)
      (taken ≤ Capped.limit → taken + params.length ≤ Capped.limit) := by
  induction fuel generalizing taken c params with
  | zero => cases h
  | succ fuel ih =>
    rw [parameterList, optional_bind] at h
    simp only [Rule.bind_eq_done_iff] at h
    rcases h with ⟨_, _, hcheck, param, _, hp, comma?, _, hcomma, h⟩
    have hfirst := (lengthCheck_reads hcheck).trans (expect_done hp).identifier
    cases comma? with
    | none =>
      cases h
      obtain ⟨rfl, -⟩ := accept?_none hcomma
      refine ⟨by simp, hfirst.weaken (by omega) ?_ ?_⟩
      · rintro _ ⟨_, _, rfl, rfl, rfl⟩
        simp [parameterSymbols]
      · rintro ⟨hne, -⟩ hle
        exact Nat.lt_of_le_of_ne hle hne
    | some comma =>
      simp only [Rule.bind_eq_done_iff] at h
      rcases h with ⟨more, _, hm, h⟩
      cases h
      obtain ⟨hmore, hr⟩ := ih hm
      refine ⟨by simp,
        (hfirst.trans (((accept?_some hcomma).mark rfl).trans hr)).weaken (by omega) ?_ ?_⟩
      · rintro _ ⟨_, _, ⟨_, _, rfl, rfl, rfl⟩, ⟨_, _, rfl, rfl, rfl⟩, rfl⟩
        obtain ⟨second, rest, rfl⟩ := List.exists_cons_of_ne_nil hmore
        simp [parameterSymbols]
      · rintro ⟨⟨hne, -⟩, -, hw⟩ hle
        have := hw (Nat.lt_of_le_of_ne hle hne)
        rw [List.length_cons]
        omega

end

/-- A statement was read behind the symbols `opened`. An `else` that it could have taken is not
next. -/
structure Cursor.ReadsStmt (ctx : Context) (opened : List Symbol) (c next : Cursor) (s : Stmt) :
    Prop where
  reads : c.Reads 1 next (fun w => s.SpelledAs (opened ++ w)) (s.Grammatical ctx)
  elseFree : s.takesElse → next.sees .kwElse = false

/-- A statement that takes no `else`. -/
theorem Cursor.ReadsStmt.closed {ctx : Context} {opened : List Symbol} {c next : Cursor} {s : Stmt}
    (h : c.Reads 1 next (fun w => s.SpelledAs (opened ++ w)) (s.Grammatical ctx))
    (he : s.takesElse = false) : Cursor.ReadsStmt ctx opened c next s where
  reads := h
  elseFree ht := by rw [he] at ht; cases ht

theorem Cursor.ReadsStmt.behind {ctx : Context} {kind : Kind} {c mid next : Cursor} {s : Stmt}
    (h : Cursor.ReadsStmt ctx [.mark kind] mid next s)
    (ht : c.Reads 1 mid (· = [.mark kind]) True) : Cursor.ReadsStmt ctx [] c next s where
  reads := by
    refine (ht.trans h.reads).weaken (by omega) ?_ And.right
    rintro _ ⟨_, _, rfl, hw, rfl⟩
    exact hw
  elseFree := h.elseFree

section
variable {fuel : Nat} {ctx : Context} {c next : Cursor} {s : Stmt} {line : Nat}

theorem loopExit_reads {exit : LoopExit} {close : Expected}
    (h : loopExit ctx exit close line c = .done s next) :
    s.isDeclaration = false ∧ Cursor.ReadsStmt ctx [.mark exit.kind] c next s := by
  cases hloop : ctx.inLoop with
  | false => simp [loopExit, hloop, fault] at h
  | true =>
    simp only [loopExit, hloop, Bool.not_true, Bool.false_eq_true, if_false,
      Rule.bind_eq_done_iff] at h
    rcases h with ⟨_, _, hc, h⟩
    cases h
    refine ⟨rfl, .closed (((expect_done hc).mark rfl).weaken (Nat.le_refl _) ?_ fun _ => hloop) rfl⟩
    rintro _ rfl
    rfl

theorem returnStatement_reads (h : returnStatement fuel ctx line c = .done s next) :
    s.isDeclaration = false ∧ Cursor.ReadsStmt ctx [.mark .kwReturn] c next s := by
  cases hfun : ctx.inFunction with
  | false => simp [returnStatement, hfun, fault] at h
  | true =>
    simp only [returnStatement, hfun, Bool.not_true, Bool.false_eq_true, if_false,
      Rule.bind_eq_done_iff] at h
    rcases h with ⟨value, _, hv, _, _, hc, h⟩
    cases h
    refine ⟨rfl, .closed (((unlessSees_reads hv).trans ((expect_done hc).mark rfl)).weaken
      (by omega) ?_ ?_) rfl⟩
    · rintro _ ⟨_, _, rfl, rfl, rfl⟩
      simp [Stmt.SpelledAs]
    · exact fun hg => ⟨hfun, hg.1⟩

theorem printStatement_reads (h : printStatement fuel ctx line c = .done s next) :
    s.isDeclaration = false ∧ Cursor.ReadsStmt ctx [.mark .kwPrint] c next s := by
  simp only [printStatement, Rule.bind_eq_done_iff] at h
  rcases h with ⟨value, _, hv, _, _, hc, h⟩
  cases h
  refine ⟨rfl, .closed ((((expressionsSound fuel).expression hv).trans
    ((expect_done hc).mark rfl)).weaken (by omega) ?_ And.left) rfl⟩
  rintro _ ⟨_, _, rfl, rfl, rfl⟩
  simp [Stmt.SpelledAs]

theorem expressionStatement_reads (h : expressionStatement fuel ctx c = .done s next) :
    s.isDeclaration = false ∧ Cursor.ReadsStmt ctx [] c next s := by
  simp only [expressionStatement, Rule.bind_eq_done_iff] at h
  rcases h with ⟨value, _, hv, _, _, hc, h⟩
  cases h
  refine ⟨rfl, .closed ((((expressionsSound fuel).expression hv).trans
    ((expect_done hc).mark rfl)).weaken (by omega) ?_ And.left) rfl⟩
  rintro _ ⟨_, _, rfl, rfl, rfl⟩
  simp [Stmt.SpelledAs]

end

def Opening.kind : Opening → Kind
  | forLoop => .kwFor
  | ifElse => .kwIf
  | whileLoop => .kwWhile
  | returns => .kwReturn
  | exit e _ => e.kind
  | block => .leftBrace
  | print => .kwPrint

theorem opening?_kind {kind : Kind} {opening : Opening} (h : opening? kind = some opening) :
    opening.kind = kind := by
  cases kind <;> cases h <;> rfl

theorem isMark_opening (opening : Opening) : isMark opening.kind := by
  cases opening with
  | exit e _ => cases e <;> rfl
  | _ => rfl

/-- What every rule for statements promises with some fuel. -/
structure StatementsSound (fuel : Nat) : Prop where
  declaration {ctx : Context} {c next : Cursor} {s : Stmt} :
    declaration fuel ctx c = .done s next → Cursor.ReadsStmt ctx [] c next s
  classDeclaration {ctx : Context} {line : Nat} {c next : Cursor} {s : Stmt} :
    classDeclaration fuel ctx.enterClass line c = .done s next →
      Cursor.ReadsStmt ctx [.mark .kwClass] c next s
  methodList {ctx : Context} {c next : Cursor} {methods : List (FunDecl Stmt)} :
    methodList fuel ctx c = .done methods next →
      c.Reads 0 next (methodsSpelledAs methods) (methodsGrammatical ctx methods)
  function {ctx : Context} {start : Option Nat} {c next : Cursor} {decl : FunDecl Stmt} :
    function fuel ctx start c = .done decl next →
      c.Reads 1 next (functionSpelledAs decl) (functionGrammatical ctx decl)
  statementList {ctx : Context} {c next : Cursor} {statements : List Stmt} :
    statementList fuel ctx c = .done statements next →
      c.Reads 0 next (statementsSpelledAs statements) (statementsGrammatical ctx statements)
  statement {ctx : Context} {c next : Cursor} {s : Stmt} :
    statement fuel ctx c = .done s next →
      s.isDeclaration = false ∧ Cursor.ReadsStmt ctx [] c next s
  forStatement {ctx : Context} {line : Nat} {c next : Cursor} {s : Stmt} :
    forStatement fuel ctx.enterLoop line c = .done s next →
      s.isDeclaration = false ∧ Cursor.ReadsStmt ctx [.mark .kwFor] c next s
  whileStatement {ctx : Context} {line : Nat} {c next : Cursor} {s : Stmt} :
    whileStatement fuel ctx.enterLoop line c = .done s next →
      s.isDeclaration = false ∧ Cursor.ReadsStmt ctx [.mark .kwWhile] c next s
  ifStatement {ctx : Context} {line : Nat} {c next : Cursor} {s : Stmt} :
    ifStatement fuel ctx line c = .done s next →
      s.isDeclaration = false ∧ Cursor.ReadsStmt ctx [.mark .kwIf] c next s

namespace StatementsSound

variable {fuel : Nat} {ctx : Context} {c next : Cursor} {s : Stmt} {line : Nat}

theorem zero : StatementsSound 0 where
  declaration h := by cases h
  classDeclaration h := by cases h
  methodList h := by cases h
  function h := by cases h
  statementList h := by cases h
  statement h := by cases h
  forStatement h := by cases h
  whileStatement h := by cases h
  ifStatement h := by cases h

theorem declaration_succ (ih : StatementsSound fuel)
    (h : Grammar.declaration (fuel + 1) ctx c = .done s next) :
    Cursor.ReadsStmt ctx [] c next s := by
  simp only [Grammar.declaration, Rule.bind_eq_done_iff] at h
  rcases h with ⟨class?, _, hc, h⟩
  cases class? with
  | some keyword => exact (ih.classDeclaration h).behind ((accept?_some hc).mark rfl)
  | none =>
  obtain ⟨rfl, -⟩ := accept?_none hc
  simp only [Rule.bind_eq_done_iff] at h
  rcases h with ⟨fun?, _, hf, h⟩
  cases fun? with
  | some keyword =>
    simp only [Rule.bind_eq_done_iff] at h
    rcases h with ⟨decl, _, hd, h⟩
    cases h
    refine .closed ((((accept?_some hf).mark rfl).trans (ih.function hd)).weaken (by omega) ?_
      And.right) rfl
    rintro _ ⟨_, v, rfl, hv, rfl⟩
    exact ⟨v, hv, rfl⟩
  | none =>
  obtain ⟨rfl, -⟩ := accept?_none hf
  simp only [Rule.bind_eq_done_iff] at h
  rcases h with ⟨var?, _, hv, h⟩
  cases var? with
  | some keyword =>
    simp only [Rule.bind_eq_done_iff] at h
    rcases h with ⟨decl, _, hd, h⟩
    cases h
    refine .closed ((((accept?_some hv).mark rfl).trans (varDeclaration_reads hd)).weaken
      (by omega) ?_ And.right) rfl
    rintro _ ⟨_, _, rfl, rfl, rfl⟩
    rfl
  | none =>
    obtain ⟨rfl, -⟩ := accept?_none hv
    exact (ih.statement h).2

theorem classDeclaration_succ (ih : StatementsSound fuel)
    (h : Grammar.classDeclaration (fuel + 1) ctx.enterClass line c = .done s next) :
    Cursor.ReadsStmt ctx [.mark .kwClass] c next s := by
  simp only [Grammar.classDeclaration, Rule.bind_eq_done_iff] at h
  rcases h with ⟨name, _, hn, _, _, ho, methods, _, hm, _, _, hc, h⟩
  cases h
  refine .closed (((expect_done hn).identifier.trans (((expect_done ho).mark rfl).trans
    ((ih.methodList hm).trans ((expect_done hc).mark rfl)))).weaken (by omega) ?_ ?_) rfl
  · rintro _ ⟨_, _, rfl, ⟨_, _, rfl, ⟨v, _, hv, rfl, rfl⟩, rfl⟩, rfl⟩
    exact ⟨v, hv, rfl⟩
  · exact fun hg => hg.2.2.1

theorem methodList_succ (ih : StatementsSound fuel) {methods : List (FunDecl Stmt)}
    (h : Grammar.methodList (fuel + 1) ctx c = .done methods next) :
    c.Reads 0 next (methodsSpelledAs methods) (methodsGrammatical ctx methods) := by
  simp only [Grammar.methodList, Rule.bind_eq_done_iff] at h
  rcases h with ⟨closed, _, hs, h⟩
  obtain ⟨rfl, -⟩ := sees_done hs
  cases closed with
  | true =>
    cases h
    exact (Cursor.Reads.nothing _).weaken (Nat.le_refl _) (fun _ => id) fun _ => trivial
  | false =>
  simp only [Bool.false_eq_true, if_false, Rule.bind_eq_done_iff] at h
  rcases h with ⟨ended, _, he, h⟩
  obtain ⟨rfl, -⟩ := atEnd_done he
  cases ended with
  | true => cases h
  | false =>
  simp only [Bool.false_eq_true, if_false, Rule.bind_eq_done_iff] at h
  rcases h with ⟨fun?, _, hf, h⟩
  cases fun? with
  | some keyword =>
    simp only [Rule.bind_eq_done_iff] at h
    rcases h with ⟨method, _, hm, more, _, hmore, h⟩
    cases h
    refine (((accept?_some hf).mark rfl).trans ((ih.function hm).trans
      (ih.methodList hmore))).weaken (Nat.zero_le _) ?_ And.right
    rintro _ ⟨_, _, rfl, ⟨u, v, hu, hv, rfl⟩, rfl⟩
    exact ⟨u, v, hu, hv, .inr rfl⟩
  | none =>
    obtain ⟨rfl, -⟩ := accept?_none hf
    simp only [choice_bind, Rule.bind_eq_done_iff] at h
    rcases h with ⟨named, _, hn, method, _, hm, more, _, hmore, h⟩
    obtain ⟨rfl, -⟩ := sees_done hn
    cases named with
    | false => cases hm
    | true =>
      cases h
      refine ((ih.function hm).trans (ih.methodList hmore)).weaken (Nat.zero_le _) ?_ id
      rintro _ ⟨u, v, hu, hv, rfl⟩
      exact ⟨u, v, hu, hv, .inl rfl⟩

/-- The list between the parentheses of a function, which may be empty. -/
theorem parametersUpToEnd {params : List String} {seen : Bool}
    (h : (if seen = true then pure [] else parameterList fuel 0) c = .done params next) :
    c.Reads 0 next (· = parameterSymbols params) (params.length ≤ Capped.limit) := by
  cases seen with
  | true =>
    cases h
    exact (Cursor.Reads.nothing _).weaken (Nat.le_refl _) (fun _ => id) fun _ => Nat.zero_le _
  | false =>
    refine (parameterList_reads h).2.weaken (Nat.zero_le _) (fun _ => id) fun hg => ?_
    simpa using hg (Nat.zero_le _)

theorem function_succ (ih : StatementsSound fuel) {start : Option Nat} {decl : FunDecl Stmt}
    (h : Grammar.function (fuel + 1) ctx start c = .done decl next) :
    c.Reads 1 next (functionSpelledAs decl) (functionGrammatical ctx decl) := by
  simp only [Grammar.function, choice_bind, Rule.bind_eq_done_iff] at h
  obtain ⟨name, _, hn, _, _, ho, seen, _, hs, params, _, hp, _, _, hc, _, _, hb, body, _, hbody,
    _, _, he, h⟩ := h
  cases h
  obtain ⟨rfl, -⟩ := sees_done hs
  refine ((expect_done hn).identifier.trans (((expect_done ho).mark rfl).trans
    ((parametersUpToEnd hp).trans (((expect_done hc).mark rfl).trans
      (((expect_done hb).mark rfl).trans ((ih.statementList hbody).trans
        ((expect_done he).mark rfl))))))).weaken (by omega) ?_ ?_
  · rintro _ ⟨_, _, rfl, ⟨_, _, rfl, ⟨_, _, rfl, ⟨_, _, rfl, ⟨_, _, rfl, ⟨v, _, hv, rfl, rfl⟩,
      rfl⟩, rfl⟩, rfl⟩, rfl⟩, rfl⟩
    exact ⟨v, hv, rfl⟩
  · rintro ⟨-, -, hparams, -, -, hbody, -⟩
    exact ⟨hparams, hbody, rfl⟩

theorem statementList_succ (ih : StatementsSound fuel) {statements : List Stmt}
    (h : Grammar.statementList (fuel + 1) ctx c = .done statements next) :
    c.Reads 0 next (statementsSpelledAs statements) (statementsGrammatical ctx statements) := by
  simp only [Grammar.statementList, Rule.bind_eq_done_iff] at h
  rcases h with ⟨closed, _, hs, h⟩
  obtain ⟨rfl, -⟩ := sees_done hs
  cases closed with
  | true =>
    cases h
    exact (Cursor.Reads.nothing _).weaken (Nat.le_refl _) (fun _ => id) fun _ => trivial
  | false =>
  simp only [Bool.false_eq_true, if_false, Rule.bind_eq_done_iff] at h
  rcases h with ⟨ended, _, he, h⟩
  obtain ⟨rfl, -⟩ := atEnd_done he
  cases ended with
  | true =>
    cases h
    exact (Cursor.Reads.nothing _).weaken (Nat.le_refl _) (fun _ => id) fun _ => trivial
  | false =>
    simp only [Bool.false_eq_true, if_false, Rule.bind_eq_done_iff] at h
    rcases h with ⟨first, _, hf, more, _, hm, h⟩
    cases h
    refine ((ih.declaration hf).reads.trans (ih.statementList hm)).weaken (Nat.zero_le _) ?_ id
    rintro _ ⟨u, v, hu, hv, rfl⟩
    exact ⟨u, v, hu, hv, rfl⟩

theorem statement_succ (ih : StatementsSound fuel)
    (h : Grammar.statement (fuel + 1) ctx c = .done s next) :
    s.isDeclaration = false ∧ Cursor.ReadsStmt ctx [] c next s := by
  simp only [Grammar.statement, Rule.bind_eq_done_iff] at h
  rcases h with ⟨found?, _, hf, h⟩
  cases found? with
  | none =>
    cases acceptSome?_none hf
    exact expressionStatement_reads h
  | some found =>
    rcases found with ⟨opening, t⟩
    obtain ⟨ho, ht⟩ := acceptSome?_some rfl hf
    rw [← opening?_kind ho] at ht
    have htake := ht.mark (isMark_opening opening)
    cases opening with
    | forLoop => exact (ih.forStatement h).imp_right (·.behind htake)
    | ifElse => exact (ih.ifStatement h).imp_right (·.behind htake)
    | whileLoop => exact (ih.whileStatement h).imp_right (·.behind htake)
    | returns => exact (returnStatement_reads h).imp_right (·.behind htake)
    | exit e close => exact (loopExit_reads h).imp_right (·.behind htake)
    | print => exact (printStatement_reads h).imp_right (·.behind htake)
    | block =>
      simp only [Rule.bind_eq_done_iff] at h
      rcases h with ⟨statements, _, hs, _, _, he, h⟩
      cases h
      refine ⟨rfl, .closed ((htake.trans ((ih.statementList hs).trans
        ((expect_done he).mark rfl))).weaken (by omega) ?_ fun hg => hg.2.1) rfl⟩
      rintro _ ⟨_, _, rfl, ⟨v, _, hv, rfl, rfl⟩, rfl⟩
      exact ⟨v, hv, rfl⟩

theorem forStatement_succ (ih : StatementsSound fuel)
    (h : Grammar.forStatement (fuel + 1) ctx.enterLoop line c = .done s next) :
    s.isDeclaration = false ∧ Cursor.ReadsStmt ctx [.mark .kwFor] c next s := by
  simp only [Grammar.forStatement, Rule.bind_eq_done_iff] at h
  obtain ⟨_, _, ho, init, _, hi, condition, _, hc, _, _, hsemi, increment, _, hn, _, _, hclose,
    body, _, hb, h⟩ := h
  cases h
  obtain ⟨hdecl, hbody⟩ := ih.statement hb
  refine ⟨rfl, (((expect_done ho).mark rfl).trans ((forInit_reads hi).trans
    ((unlessSees_reads hc).trans (((expect_done hsemi).mark rfl).trans
      ((unlessSees_reads hn).trans (((expect_done hclose).mark rfl).trans
        hbody.reads)))))).weaken (by omega) ?_ ?_, hbody.elseFree⟩
  · rintro _ ⟨_, _, rfl, ⟨_, _, rfl, ⟨_, _, rfl, ⟨_, _, rfl, ⟨_, _, rfl, ⟨_, v, rfl, hv, rfl⟩,
      rfl⟩, rfl⟩, rfl⟩, rfl⟩, rfl⟩
    exact ⟨v, hv, rfl⟩
  · rintro ⟨-, hinit, hcond, -, hinc, -, hbody⟩
    exact ⟨⟨hinit, hcond, hinc⟩, hdecl, hbody⟩

theorem whileStatement_succ (ih : StatementsSound fuel)
    (h : Grammar.whileStatement (fuel + 1) ctx.enterLoop line c = .done s next) :
    s.isDeclaration = false ∧ Cursor.ReadsStmt ctx [.mark .kwWhile] c next s := by
  simp only [Grammar.whileStatement, Rule.bind_eq_done_iff] at h
  rcases h with ⟨_, _, ho, condition, _, hc, _, _, hclose, body, _, hb, h⟩
  cases h
  obtain ⟨hdecl, hbody⟩ := ih.statement hb
  refine ⟨rfl, (((expect_done ho).mark rfl).trans (((expressionsSound fuel).expression hc).trans
    (((expect_done hclose).mark rfl).trans hbody.reads))).weaken (by omega) ?_ ?_,
    hbody.elseFree⟩
  · rintro _ ⟨_, _, rfl, ⟨_, _, rfl, ⟨_, v, rfl, hv, rfl⟩, rfl⟩, rfl⟩
    exact ⟨v, hv, rfl⟩
  · rintro ⟨-, hcond, -, hbody⟩
    exact ⟨hcond, hdecl, hbody⟩

/-- Behind a branch without an `else` there is none to take. -/
theorem ifStatement_succ (ih : StatementsSound fuel)
    (h : Grammar.ifStatement (fuel + 1) ctx line c = .done s next) :
    s.isDeclaration = false ∧ Cursor.ReadsStmt ctx [.mark .kwIf] c next s := by
  simp only [Grammar.ifStatement, Rule.bind_eq_done_iff] at h
  rcases h with ⟨_, _, ho, condition, _, hc, _, _, hclose, thenBranch, mid, ht, else?, _, he, h⟩
  obtain ⟨hdecl, hthen⟩ := ih.statement ht
  have hfront := ((expect_done ho).mark rfl).trans (((expressionsSound fuel).expression hc).trans
    (((expect_done hclose).mark rfl).trans hthen.reads))
  cases else? with
  | none =>
    cases h
    obtain ⟨rfl, hfree⟩ := accept?_none he
    refine ⟨rfl, hfront.weaken (by omega) ?_ ?_, fun _ => hfree⟩
    · rintro _ ⟨_, _, rfl, ⟨_, _, rfl, ⟨_, v, rfl, hv, rfl⟩, rfl⟩, rfl⟩
      exact ⟨v, hv, rfl⟩
    · rintro ⟨-, hcond, -, hthen⟩
      exact ⟨hcond, hdecl, hthen⟩
  | some keyword =>
    simp only [Rule.bind_eq_done_iff] at h
    rcases h with ⟨elseBranch, _, hb, h⟩
    cases h
    obtain ⟨hdecl', helse⟩ := ih.statement hb
    have htaken : thenBranch.takesElse = false := by
      obtain ⟨hk, -, hr, -⟩ := accept?_some he
      cases hte : thenBranch.takesElse with
      | false => rfl
      | true => simpa [Cursor.sees, hr, hk] using hthen.elseFree hte
    refine ⟨rfl, (hfront.trans (((accept?_some he).mark rfl).trans helse.reads)).weaken
      (by omega) ?_ ?_, helse.elseFree⟩
    · rintro _ ⟨_, _, ⟨_, _, rfl, ⟨_, _, rfl, ⟨_, u, rfl, hu, rfl⟩, rfl⟩, rfl⟩,
        ⟨_, v, rfl, hv, rfl⟩, rfl⟩
      exact ⟨u, v, hu, hv, by simp⟩
    · rintro ⟨⟨-, hcond, -, hthen⟩, -, helse⟩
      exact ⟨hcond, ⟨hdecl, htaken, hthen⟩, hdecl', helse⟩

end StatementsSound

theorem statementsSound (fuel : Nat) : StatementsSound fuel := by
  induction fuel with
  | zero => exact .zero
  | succ fuel ih =>
    exact {
      declaration := ih.declaration_succ
      classDeclaration := ih.classDeclaration_succ
      methodList := ih.methodList_succ
      function := ih.function_succ
      statementList := ih.statementList_succ
      statement := ih.statement_succ
      forStatement := ih.forStatement_succ
      whileStatement := ih.whileStatement_succ
      ifStatement := ih.ifStatement_succ }

end Lox.Grammar
