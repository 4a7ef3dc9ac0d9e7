import Lox.Proofs.Grammar.StatementCompleteness
import Lox.Proofs.Grammar.Soundness

/-! Reading gives back every program that the grammar has, from each of its spellings. -/
namespace Lox.Grammar

theorem program_yields (fuel : Nat) {statements : List Stmt}
    (hg : statementsGrammatical .top statements) {w : List Symbol}
    (hs : statementsSpelledAs statements w) {c last : Cursor} (ho : Cursor.Offers w c last)
    (hend : last.atEnd) :
    program fuel c = none ∨ ∃ p, program fuel c = some p ∧
      statementsWithoutLines p.statements = statementsWithoutLines statements ∧
        p.diagnostics = last.reports := by
  induction statements generalizing fuel w c with
  | nil =>
    cases hs
    cases ho
    cases fuel with
    | zero => exact .inl rfl
    | succ fuel => exact .inr ⟨_, by rw [program, if_pos hend], rfl, rfl⟩
  | cons s rest ih =>
    rcases hs with ⟨u, v, hu, hv, rfl⟩
    obtain ⟨mid, hfirst, hrest⟩ := Cursor.Offers.append.1 ho
    have helse : mid.sees .kwElse = false := by
      refine sees_else_of_statements hg.2 hv hrest ?_
      revert hend
      unfold Cursor.atEnd Cursor.sees
      split <;> simp_all
    obtain ⟨a, u', rfl, ha⟩ := spelledAs_declaration_head hg.1 hu
    obtain ⟨t, _, rfl, rfl, -⟩ := id hfirst
    cases fuel with
    | zero => exact .inl rfl
    | succ fuel =>
      have hne : t.kind ≠ .eof := opensDeclaration_ne ha rfl
      rw [program, if_neg (by simp [Cursor.atEnd, Cursor.push, hne])]
      have hread : (declaration fuel .top).Yields _ (Stmt.Resembles s) mid :=
        (stmtReadsBack s hg.1).declaration hu hfirst fun _ => helse
      rcases hread with h | ⟨s', hs', h⟩
      · rw [h]
        exact .inl rfl
      rw [h]
      rcases ih fuel hg.2 hv hrest with h' | ⟨p, h', hp, hd⟩
      · exact .inl (by simp only [h', Option.map_none])
      refine .inr ⟨⟨s' :: p.statements, p.diagnostics⟩, by simp only [h', Option.map_some], ?_, hd⟩
      simp only [Stmt.Resembles, statementsWithoutLines] at hs' hp ⊢
      rw [hs', hp]

theorem parse_of_spelled {statements : List Stmt} (hg : statementsGrammatical .top statements)
    {tokens : List Token} (hs : statementsSpelledAs statements (tokens.map Token.symbol))
    {last : Token} (hl : last.kind = .eof) :
    (parse (tokens ++ [last])).diagnostics = [] ∧
      statementsWithoutLines (parse (tokens ++ [last])).statements =
        statementsWithoutLines statements := by
  have hp := program_eq_parse (tokens ++ [last])
  have hend : (Cursor.mk [last] []).atEnd := by simp [Cursor.atEnd, hl]
  obtain h | ⟨p, h, hstatements, hdiagnostics⟩ :=
    program_yields (enoughFuel (tokens ++ [last])) hg hs
      (Cursor.Offers.of_tokens tokens ⟨[last], []⟩) hend
  · rw [h] at hp
    cases hp
  · rw [h] at hp
    cases hp
    exact ⟨hdiagnostics, hstatements⟩

/-- A class whose method sets a property and returns nothing, and a loop without clauses in which
an `else` belongs to the second of two `if`s. -/
def nestedSample : List Stmt :=
  let read (name : String) : Expr := .read ⟨name, .global⟩ 1
  [.classDecl "A" [⟨"m", ["x"], [.expression (.set (.this ⟨"this", .global⟩ 1) "y" (read "x") 1) 1,
    .returns none 1], 1, 0⟩] 1,
   .forLoop .nothing none none (.ifThen (read "a") (.ifElse
    (.binary (.unary .not (read "b") 1) (.strict .equal) (.call (read "c") [] 1) 1)
    (.loopExit .toEnd 1) (.loopExit .toNext 1) 1) 1) 1]

/-- The method is spelled with `fun`. -/
def nestedSpelling : List Token :=
  let word (kind : Kind) : Token := ⟨kind, "", .nil, 7⟩
  let name (lexeme : String) : Token := ⟨.identifier, lexeme, .nil, 7⟩
  [word .kwClass, name "A", word .leftBrace, word .kwFun, name "m", word .leftParen, name "x",
   word .rightParen, word .leftBrace, word .kwThis, word .dot, name "y", word .equal, name "x",
   word .semicolon, word .kwReturn, word .semicolon, word .rightBrace, word .rightBrace,
   word .kwFor, word .leftParen, word .semicolon, word .semicolon, word .rightParen, word .kwIf,
   word .leftParen, name "a", word .rightParen, word .kwIf, word .leftParen, word .bang, name "b",
   word .equalEqual, name "c", word .leftParen, word .rightParen, word .rightParen,
   word .kwBreak, word .semicolon, word .kwElse, word .kwContinue, word .semicolon]

theorem parse_of_spelled_nested :
    (parse (nestedSpelling ++ [⟨.eof, "", .nil, 7⟩])).diagnostics = [] ∧
      statementsWithoutLines (parse (nestedSpelling ++ [⟨.eof, "", .nil, 7⟩])).statements =
        statementsWithoutLines nestedSample :=
  have hg : statementsGrammatical .top nestedSample := by
    simp [nestedSample, statementsGrammatical, Stmt.Grammatical, methodsGrammatical,
      functionGrammatical, Expr.Grammatical, ForInit.Grammatical, optionalGrammatical,
      argumentsGrammatical, Expr.tightness, Expr.callLevel, Expr.prefixLevel, BinaryOp.tightness,
      Stmt.isDeclaration, Stmt.takesElse, Context.top, Context.enterClass, Context.enterLoop,
      Context.enterFunction, Capped.limit]
  have hs : statementsSpelledAs nestedSample (nestedSpelling.map Token.symbol) :=
    ⟨_, _, ⟨_, ⟨_, _, ⟨_, ⟨_, _, rfl, ⟨_, _, rfl, rfl, rfl⟩, rfl⟩, rfl⟩, rfl, .inr rfl⟩, rfl⟩,
      ⟨_, _, ⟨_, ⟨_, ⟨_, _, rfl, rfl, rfl⟩, rfl⟩, rfl⟩, rfl, rfl⟩, rfl⟩
  parse_of_spelled hg hs rfl

end Lox.Grammar
