import Lox.Proofs.Grammar.Noting
import Lox.Proofs.Lines.Rules

/-! What is left of a token list that cannot be read to its end: the statements in front of the one
that fails, as if the list ended there. -/
namespace Lox.Grammar

/-! The first statement of a program. -/

theorem parse_of_atEnd {tokens : List Token} (h : Cursor.atEnd ⟨tokens, []⟩) :
    parse tokens = ⟨[], []⟩ := by
  rw [parse, enoughFuel, program, if_pos h, Option.getD_some]

/-- At least one token is taken, and none of them is the mark of the end. -/
theorem declaration_takes {fuel : Nat} {ctx : Context} {c next : Cursor} {s : Stmt}
    (h : declaration fuel ctx c = .done s next) :
    ∃ t used, c.rest = (t :: used) ++ next.rest ∧ ∀ t' ∈ t :: used, t'.kind ≠ .eof := by
  obtain ⟨used, hlength, hr, hused, -⟩ := ((statementsSound fuel).declaration h).reads
  cases used with
  | nil => cases hlength
  | cons t used => exact ⟨t, used, hr, hused⟩

/-- A statement that can be read is the first one, whatever fuel it was read with. -/
theorem parse_of_declaration {fuel : Nat} {tokens : List Token} {s : Stmt} {next : Cursor}
    (h : declaration fuel .top ⟨tokens, []⟩ = .done s next) : parse tokens =
      ⟨s :: (parse next.rest).statements, next.reports ++ (parse next.rest).diagnostics⟩ := by
  have hopen : Cursor.atEnd ⟨tokens, []⟩ = false := by
    obtain ⟨t, used, hr, hused⟩ := declaration_takes h
    obtain rfl : tokens = t :: used ++ next.rest := hr
    simpa [Cursor.atEnd] using hused t List.mem_cons_self
  have hfuel : declaration (16 * tokens.length + 15) .top ⟨tokens, []⟩ ≠ .outOfFuel :=
    (statementsFinish _).declaration (Nat.add_le_add_left (by decide) _)
  have hp := program_eq_parse tokens
  rw [enoughFuel, program, hopen, declaration_unique h hfuel] at hp
  obtain ⟨p, hnext, hp⟩ := Option.map_eq_some_iff.1 hp
  rw [program_behind hnext] at hp
  exact hp.symm

/-- How the reading of a program begins. -/
inductive Beginning (tokens : List Token) : Prop where
  | ends : parse tokens = ⟨[], []⟩ → Beginning tokens
  | fails {reports : List Diagnostic} : parse tokens = ⟨[], reports⟩ → Beginning tokens
  | reads {fuel : Nat} {s : Stmt} {next : Cursor} :
    declaration fuel .top ⟨tokens, []⟩ = .done s next → Beginning tokens

theorem beginning (tokens : List Token) : Beginning tokens := by
  have hp := program_eq_parse tokens
  rw [enoughFuel, program] at hp
  split at hp
  next => exact .ends (Option.some.inj hp).symm
  next =>
    cases hd : declaration (16 * tokens.length + 15) .top ⟨tokens, []⟩ with
    | outOfFuel =>
      rw [hd] at hp
      cases hp
    | failed fault reports =>
      rw [hd] at hp
      exact .fails (Option.some.inj hp).symm
    | done s next => exact .reads hd

/-- A statement is read in the same way if the list ends somewhere behind it. -/
theorem declaration_cut {fuel : Nat} {tokens finished failing : List Token}
    {reports : List Diagnostic} {s : Stmt} {next : Cursor}
    (h : declaration fuel .top ⟨tokens, reports⟩ = .done s next)
    (hrest : next.rest = finished ++ failing) (hfin : ∀ t ∈ finished, t.kind ≠ .eof) :
    ∃ used, (∀ t ∈ used, t.kind ≠ .eof) ∧ tokens = used ++ next.rest ∧
      ∀ last : Token, last.kind = .eof →
        declaration fuel .top ⟨used ++ (finished ++ [last]), reports⟩ =
          .done s ⟨finished ++ [last], next.reports⟩ := by
  obtain ⟨t, used, hr, hused⟩ := declaration_takes h
  refine ⟨t :: used, hused, hr, fun last hl => ?_⟩
  let g : Graft := ⟨id, failing, [last], by simp [hl]⟩
  have hlines (ts : List Token) : ts.map (Token.relined g.lines) = ts := List.map_id' ts
  have hreports (ds : List Diagnostic) : ds.map (Diagnostic.relined g.lines) = ds :=
    List.map_id' ds
  have hbeside : Cursor.Beside g ⟨tokens, reports⟩ ⟨t :: used ++ (finished ++ [last]), reports⟩ := by
    have hall := List.forall_mem_append.2 ⟨hused, hfin⟩
    have hof := Cursor.Beside.of_tokens g hall reports
    rw [hlines, hreports, List.append_assoc, List.append_assoc] at hof
    rwa [show tokens = t :: used ++ (finished ++ failing) from hrest ▸ hr]
  obtain ⟨next', hd, hb⟩ := ((statementsCarry g (Nat.le_refl fuel)).declaration .top).follows
    hbeside h (by simp [hrest, g])
  have hnext := hb.eq_of_rest hrest
  rw [hlines, hreports] at hnext
  rw [hd, hnext, Stmt.relined_id]

/-! Whole programs. -/

/-- The token list splits in front of the statement that fails. The tokens before, with any mark of
the end behind them, are read to the same statements, and nothing is wrong with them but lists that
are too long. The tokens from there on are read to no statement. -/
structure Splits (tokens finished failing : List Token) (front : List Diagnostic) : Prop where
  tokens_eq : tokens = finished ++ failing
  unended : ∀ t ∈ finished, t.kind ≠ .eof
  diagnostics : (parse tokens).diagnostics = front ++ (parse failing).diagnostics
  front_lists : ∀ d ∈ front, ¬ d.IsFatal
  fails : (parse failing).statements = []
  finishes {last : Token} : last.kind = .eof →
    parse (finished ++ [last]) = ⟨(parse tokens).statements, front⟩

theorem Splits.start {tokens : List Token} (h : (parse tokens).statements = []) :
    Splits tokens [] tokens [] where
  tokens_eq := rfl
  unended := by simp
  diagnostics := rfl
  front_lists := by simp
  fails := h
  finishes {last} hl := by
    rw [h]
    exact parse_of_atEnd (by simp [Cursor.atEnd, hl])

theorem declaration_reports_lists {fuel : Nat} {tokens : List Token} {s : Stmt} {next : Cursor}
    (h : declaration fuel .top ⟨tokens, []⟩ = .done s next) :
    ∀ d ∈ next.reports, ¬ d.IsFatal := by
  obtain ⟨commas, hreports⟩ := declaration_reports h
  rw [hreports]
  exact fun d hd => Comma.not_fatal hd

/-- A statement in front of the split. -/
theorem Splits.read {fuel : Nat} {tokens finished failing : List Token} {s : Stmt} {next : Cursor}
    {front : List Diagnostic} (hd : declaration fuel .top ⟨tokens, []⟩ = .done s next)
    (h : Splits next.rest finished failing front) :
    ∃ used, Splits tokens (used ++ finished) failing (next.reports ++ front) := by
  obtain ⟨used, hused, hr, hcut⟩ := declaration_cut hd h.tokens_eq h.unended
  refine ⟨used, ?_, ?_, ?_, ?_, h.fails, fun {last} hl => ?_⟩
  · rw [hr, h.tokens_eq, List.append_assoc]
  · exact List.forall_mem_append.2 ⟨hused, h.unended⟩
  · rw [parse_of_declaration hd, h.diagnostics, List.append_assoc]
  · exact List.forall_mem_append.2 ⟨declaration_reports_lists hd, h.front_lists⟩
  · rw [parse_of_declaration hd, List.append_assoc, parse_of_declaration (hcut last hl),
      h.finishes hl]

/-- Either the token list is read to its end, or it splits. -/
theorem splits_or_finishes (tokens : List Token) :
    (∀ d ∈ (parse tokens).diagnostics, ¬ d.IsFatal) ∨
      ∃ finished failing front, Splits tokens finished failing front := by
  induction hn : tokens.length using Nat.strong_induction_on generalizing tokens with
  | _ n ih =>
    cases beginning tokens with
    | ends hp => exact .inl (by simp [hp])
    | fails hp => exact .inr ⟨[], tokens, [], .start (by rw [hp])⟩
    | @reads fuel s next hd =>
      have hshorter : next.rest.length < n := by
        obtain ⟨t, used, hr, -⟩ := declaration_takes hd
        have hlength : tokens.length = (t :: used ++ next.rest).length := congrArg List.length hr
        rw [List.length_append, List.length_cons] at hlength
        omega
      rcases ih _ hshorter next.rest rfl with hfine | ⟨finished, failing, front, hsplit⟩
      · left
        rw [parse_of_declaration hd]
        exact List.forall_mem_append.2 ⟨declaration_reports_lists hd, hfine⟩
      · obtain ⟨used, hread⟩ := hsplit.read hd
        exact .inr ⟨_, _, _, hread⟩

/-- The reading of any token list reports each list at the comma behind the last entry that it may
have, in the order of the tokens, and behind these the fault that stops it, if there is one. In that
case the token list splits in front of the statement that fails. -/
theorem parse_recovers (tokens : List Token) :
    (parse tokens).statements = (noted tokens).statements ∧
      (parse tokens).diagnostics =
        Comma.reports (noted tokens).commas ++ (noted tokens).stop.toList ∧
      ∀ d ∈ (noted tokens).stop, d.IsFatal ∧
        ∃ finished failing front, Splits tokens finished failing front := by
  obtain ⟨hfatal, hparse⟩ := parse_eq_noted tokens
  refine ⟨by rw [hparse], by rw [hparse], fun d hd => ⟨hfatal d hd, ?_⟩⟩
  have hmem : d ∈ (parse tokens).diagnostics := by
    rw [hparse]
    exact List.mem_append_right _ (Option.mem_toList.2 hd)
  exact (splits_or_finishes tokens).resolve_left fun hfine => hfine d hmem (hfatal d hd)

end Lox.Grammar
