import Lox.Proofs.Grammar.Termination

/-! What is read without a report obeys the grammar, and its spelling is the token list up to the
first mark of the end: nothing outside the language is accepted and no token is lost. -/
namespace Lox.Grammar

theorem program_reads {fuel : Nat} {c : Cursor} {p : Parsed} (h : program fuel c = some p)
    (hq : p.diagnostics = []) :
    ∃ last, last.atEnd ∧ last.reports = [] ∧
      c.Reads 0 last (statementsSpelledAs p.statements)
        (statementsGrammatical .top p.statements) := by
  induction fuel generalizing c p with
  | zero => cases h
  | succ fuel ih =>
    rw [program] at h
    split at h
    next hend =>
      cases h
      exact ⟨c, hend, hq, (Cursor.Reads.nothing c).weaken (Nat.le_refl _) (fun _ => id)
        fun _ => trivial⟩
    cases hd : declaration fuel .top c with
    | done s next =>
      rw [hd] at h
      obtain ⟨rest, hr, rfl⟩ := Option.map_eq_some_iff.1 h
      obtain ⟨last, hend, hlast, hreads⟩ := ih hr hq
      refine ⟨last, hend, hlast,
        (((statementsSound fuel).declaration hd).reads.trans hreads).weaken (Nat.zero_le _) ?_ id⟩
      rintro _ ⟨u, v, hu, hv, rfl⟩
      exact ⟨u, v, hu, hv, rfl⟩
    | failed fault reports =>
      rw [hd] at h
      cases h
      simp at hq
    | outOfFuel => rw [hd] at h; cases h

/-- The tokens in front of the first mark of the end. -/
def body (tokens : List Token) : List Token := tokens.takeWhile (·.kind != .eof)

theorem body_append {used rest : List Token} {reports : List Diagnostic}
    (hu : ∀ t ∈ used, t.kind ≠ .eof) (hr : (Cursor.mk rest reports).atEnd) :
    body (used ++ rest) = used := by
  rw [body, List.takeWhile_append_of_pos (by simpa using hu), List.append_right_eq_self]
  cases rest with
  | nil => rfl
  | cons t rest =>
    have hk : t.kind = .eof := by simpa [Cursor.atEnd] using hr
    simp [hk]

theorem parse_grammatical_spelled {tokens : List Token} (hs : ∀ t ∈ tokens, t.Sincere)
    (hq : (parse tokens).diagnostics = []) :
    statementsGrammatical .top (parse tokens).statements ∧
      statementsSpelledAs (parse tokens).statements ((body tokens).map Token.symbol) := by
  obtain ⟨last, hend, hlast, used, -, hr, hi, hspell, hgood⟩ :=
    program_reads (program_eq_parse tokens) hq
  have hr : tokens = used ++ last.rest := hr
  refine ⟨(hgood hlast).2, ?_⟩
  rw [hr, body_append hi hend, ← hr]
  exact hspell fun t ht => hs t (hr ▸ List.mem_append_left _ ht)

/-- A class whose method, here without `fun`, leaves a loop and returns an assignment. -/
def methodSample : List Token :=
  let word (kind : Kind) : Token := ⟨kind, "", .nil, 1⟩
  let name (lexeme : String) : Token := ⟨.identifier, lexeme, .nil, 1⟩
  [word .kwClass, name "A", word .leftBrace, name "m", word .leftParen, name "x",
   word .rightParen, word .leftBrace, word .kwWhile, word .leftParen, name "x",
   word .rightParen, word .kwBreak, word .semicolon, word .kwReturn, word .kwThis, word .dot,
   name "y", word .equal, word .bang, ⟨.string, "s", .string "s", 1⟩, word .kwOr, name "x",
   word .semicolon, word .rightBrace, word .rightBrace, word .eof]

theorem parse_grammatical_spelled_method :
    ((∀ t ∈ methodSample, t.Sincere) ∧ (parse methodSample).diagnostics = []) ∧
      statementsGrammatical .top (parse methodSample).statements ∧
        statementsSpelledAs (parse methodSample).statements ((body methodSample).map Token.symbol) :=
  have hs : ∀ t ∈ methodSample, t.Sincere := by decide
  have hq : (parse methodSample).diagnostics = [] := by rfl
  ⟨⟨hs, hq⟩, parse_grammatical_spelled hs hq⟩

end Lox.Grammar
