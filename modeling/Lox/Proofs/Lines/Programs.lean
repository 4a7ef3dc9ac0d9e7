import Lox.Proofs.Grammar.Completeness
import Lox.Proofs.Lines.Rules

/-! Programs one behind the other: if each of two token lists can be read without a report, then so
can the first with the second in the place of its end. -/
namespace Lox.Grammar

variable {g : Graft}

/-- Tokens that are not the mark of the end stand in front of the tail. -/
theorem Cursor.Beside.old_length_le (hends : ∀ t ∈ g.old.head?, t.kind = .eof)
    {c c' next : Cursor} (hb : c.Beside g c') {used : List Token} (hr : c.rest = used ++ next.rest) (hu : ∀ t ∈ used, t.kind ≠ .eof) :
    g.old.length ≤ next.rest.length := by
  induction hb generalizing used next with
  | tail =>
    cases used with
    | nil => exact Nat.le_of_eq (congrArg List.length hr)
    | cons t used =>
      have hhead : t ∈ g.old.head? := by rw [show g.old = t :: (used ++ next.rest) from hr]; rfl
      exact absurd (hends t hhead) (hu t List.mem_cons_self)
  | @push c c' t _ _ ih =>
    cases used with
    | nil =>
      have hle : g.old.length ≤ c.rest.length := @ih c [] rfl (by simp)
      have hlength : (t :: c.rest).length = next.rest.length := congrArg List.length hr
      rw [List.length_cons] at hlength
      omega
    | cons t' used =>
      exact ih (List.cons.inj hr).2 fun t ht => hu t (List.mem_cons_of_mem _ ht)

/-- Reports are not taken back. -/
theorem program_reports {fuel : Nat} {c : Cursor} {p : Parsed} (hp : program fuel c = some p)
    (hq : p.diagnostics = []) : c.reports = [] := by
  obtain ⟨last, -, hlast, used, -, -, -, -, hgood⟩ := program_reads hp hq
  exact (hgood hlast).1

/-- What is read in front of one tail is read in front of another, and what is behind it is left to
read. -/
theorem program_graft (hends : ∀ t ∈ g.old.head?, t.kind = .eof) {fuel fuel' : Nat}
    (h : fuel ≤ fuel') {c c' : Cursor} (hb : c.Beside g c') {p : Parsed} (hp : program fuel c = some p) (hq : p.diagnostics = []) :
    ∃ rest, rest + p.statements.length = fuel' ∧
      p.statements.length + g.old.length ≤ c.rest.length ∧
        program fuel' c' = (program rest ⟨g.new, []⟩).map fun q =>
          ⟨statementsRelined g.lines p.statements ++ q.statements, q.diagnostics⟩ := by
  induction fuel generalizing fuel' c c' p with
  | zero => cases hp
  | succ fuel ih =>
    cases fuel' with
    | zero => exact absurd h (Nat.not_succ_le_zero _)
    | succ fuel' =>
      have hreports := program_reports hp hq
      rw [program] at hp
      cases hb with
      | @tail reports =>
        have hend : (Cursor.mk g.old reports).atEnd := by
          unfold Cursor.atEnd
          cases hold : g.old with
          | nil => rfl
          | cons t old => exact beq_iff_eq.2 (hends t (by rw [hold]; rfl))
        rw [if_pos hend] at hp
        cases hp
        obtain rfl : reports = [] := hreports
        exact ⟨fuel' + 1, rfl, Nat.le_of_eq (Nat.zero_add _), by simp [statementsRelined]⟩
      | @push c c' t ht hb =>
        have hopen (d : Cursor) (t' : Token) (hk : t'.kind = t.kind) : (d.push t').atEnd = false := by
          simpa [Cursor.atEnd, Cursor.push, hk] using ht
        rw [hopen c t rfl] at hp
        rw [program, hopen c' (t.relined g.lines) rfl]
        simp only [Bool.false_eq_true, if_false] at hp ⊢
        cases hd : declaration fuel .top (c.push t) with
        | outOfFuel => simp only [hd] at hp; cases hp
        | failed fault reports =>
          simp only [hd] at hp
          cases hp
          simp at hq
        | done s next =>
          simp only [hd] at hp
          obtain ⟨p', hp', rfl⟩ := Option.map_eq_some_iff.1 hp
          have h := Nat.le_of_succ_le_succ h
          have hcarries := (statementsCarry g h).declaration .top
          obtain ⟨used, -, hr, hu, -⟩ := ((statementsSound fuel).declaration hd).reads
          have hold := (Cursor.Beside.push ht hb).old_length_le hends hr hu
          obtain ⟨next', hd', hb'⟩ := hcarries.follows (.push ht hb) hd hold
          have htakes := hcarries.takes hd
          obtain ⟨rest, hfuel, hlength, hrest⟩ := ih h hb' hp' hq
          refine ⟨rest, ?_, ?_, ?_⟩
          · rw [List.length_cons]
            omega
          · rw [List.length_cons]
            omega
          · simp only [hd', hrest, Option.map_map]
            rfl

/-- The first token list, without its mark of the end, and behind it the second one, whose lines
may be any: both are read as if they stood alone. -/
theorem parse_append {first second : List Token} {e e' : Token} (he : e.kind = .eof)
    (he' : e'.kind = .eof) (hfirst : ∀ t ∈ first, t.kind ≠ .eof)
    (hsecond : ∀ t ∈ second, t.kind ≠ .eof) (helse : ∀ t ∈ second.head?, t.kind ≠ .kwElse)
    (hq : (parse (first ++ [e])).diagnostics = [])
    (hq' : (parse (second ++ [e'])).diagnostics = []) (φ : Nat → Nat) :
    parse (first ++ (second ++ [e']).map (Token.relined φ)) =
      ⟨(parse (first ++ [e])).statements ++
        statementsRelined φ (parse (second ++ [e'])).statements, []⟩ := by
  have hends {t : Token} (ht : t.kind = .eof) : ∀ t' ∈ [t].head?, t'.kind = .eof := by
    simpa using ht
  let front : Graft := ⟨id, [e], (second ++ [e']).map (Token.relined φ), by
    cases second with
    | nil => simp [Token.relined, he']
    | cons t second => simpa [Token.relined] using helse⟩
  let back : Graft := ⟨φ, [e'], [e'.relined φ], by simp [Token.relined, he']⟩
  let whole := first ++ (second ++ [e']).map (Token.relined φ)
  have hfuel : enoughFuel (first ++ [e]) ≤ enoughFuel whole := by
    simp only [enoughFuel, whole, List.length_append, List.length_map, List.length_singleton]
    omega
  have hbeside : Cursor.Beside front ⟨first ++ [e], []⟩ ⟨whole, []⟩ := by
    have h := Cursor.Beside.of_tokens front hfirst []
    rwa [show first.map (Token.relined id) = first from List.map_id' first] at h
  obtain ⟨rest, hrest, hlength, hwhole⟩ :=
    program_graft (hends he) hfuel hbeside (program_eq_parse _) hq
  have hfuel' : enoughFuel (second ++ [e']) ≤ rest := by
    simp only [enoughFuel, whole, List.length_append, List.length_map, List.length_singleton,
      front] at hrest hlength ⊢
    omega
  have hbeside' : Cursor.Beside back ⟨second ++ [e'], []⟩
      ⟨(second ++ [e']).map (Token.relined φ), []⟩ := by
    have h := Cursor.Beside.of_tokens back hsecond []
    rwa [List.map_append]
  obtain ⟨rest', hrest', hlength', hbehind⟩ :=
    program_graft (hends he') hfuel' hbeside' (program_eq_parse _) hq'
  have hend : program rest' ⟨[e'.relined φ], []⟩ = some ⟨[], []⟩ := by
    cases rest' with
    | zero =>
      simp only [enoughFuel, List.length_append, List.length_singleton, back] at *
      omega
    | succ rest' => rw [program, if_pos (by simp [Cursor.atEnd, Token.relined, he'])]
  rw [hend, Option.map_some, List.append_nil] at hbehind
  have hparse : program (enoughFuel whole) ⟨whole, []⟩ = _ := hwhole
  rw [show program rest ⟨front.new, []⟩ = _ from hbehind, Option.map_some] at hparse
  rw [parse, hparse, Option.getD_some, statementsRelined_id]

end Lox.Grammar
