import Lox.Proofs.Grammar.Matching
import Lox.Proofs.Grammar.Termination

/-! A reading that takes note of the commas between the entries of lists and allows any number of
them, and what the rules of the grammar report, told from the notes. -/
namespace Lox

/-- The fault is not about the length of a list. -/
def Diagnostic.IsFatal (d : Diagnostic) : Prop := ∀ what, d.fault ≠ .grammar (.tooMany what)

namespace Grammar

/-- A comma that was taken behind so many entries of a list, with the line of the token that follows
it. -/
structure Comma where
  what : Capped
  entries : Nat
  line : Nat

/-- The tokens still to read and the commas of lists taken so far, oldest first. -/
structure Notes where
  rest : List Token
  commas : List Comma

/-- A reading ends with a value, with a fault, or out of fuel. -/
abbrev Noting := ExceptT (Option Diagnostic) (StateM Notes)

namespace Noting

/-- What a rule that reports nothing does with the tokens. -/
def look {α : Type} (r : Rule α) : Noting α := fun notes =>
  match r ⟨notes.rest, []⟩ with
  | .done a next => (.ok a, { notes with rest := next.rest })
  | .failed fault _ => (.error (some fault), notes)
  | .outOfFuel => (.error none, notes)

def note (what : Capped) (entries : Nat) : Noting Unit := modify fun notes =>
  { notes with commas := notes.commas ++ [⟨what, entries, Cursor.line ⟨notes.rest, []⟩⟩] }

def separator (what : Capped) (entries : Nat) : Noting Bool := do
  match ← look (accept? .comma) with
  | none => pure false
  | some _ =>
    note what entries
    pure true

def reader : Reader Noting where
  fuelSpent := throw none
  look r _ := look r
  separator := separator

theorem bind_apply {α β : Type} (x : Noting α) (f : α → Noting β) (notes : Notes) :
    (x >>= f) notes = match x notes with
      | (.ok a, next) => f a next
      | (.error e, next) => (.error e, next) := by
  show (match x notes with | (a, next) => ExceptT.bindCont f a next) = _
  rcases x notes with ⟨_ | _, _⟩ <;> rfl

end Noting

/-- A list is reported with the comma behind the last entry that it may have. -/
def Comma.reports (commas : List Comma) : List Diagnostic :=
  (commas.filter (·.entries = Capped.limit)).map fun comma =>
    ⟨comma.line, .grammar (.tooMany comma.what)⟩

namespace Comma

@[simp] theorem reports_append (commas commas' : List Comma) :
    reports (commas ++ commas') = reports commas ++ reports commas' := by
  simp [reports]

theorem not_fatal {commas : List Comma} {d : Diagnostic} (h : d ∈ reports commas) :
    ¬ d.IsFatal := by
  obtain ⟨comma, -, rfl⟩ := List.mem_map.1 h
  exact fun hfatal => hfatal comma.what rfl

end Comma

theorem lengthCheck_apply (what : Capped) (entries : Nat) (rest : List Token)
    (reports : List Diagnostic) : lengthCheck what entries ⟨rest, reports⟩ =
      .done () ⟨rest, reports ++ Comma.reports [⟨what, entries, Cursor.line ⟨rest, []⟩⟩]⟩ := by
  unfold lengthCheck
  split
  next hfull =>
    simp only [hfull, Comma.reports, List.filter_cons, decide_true, if_true]
    rfl
  next hfull =>
    simp only [hfull, Comma.reports, List.filter_cons, decide_false, Bool.false_eq_true, if_false,
      List.filter_nil, List.map_nil, List.append_nil]
    rfl

/-- The rule ends as the reading does, and has reported what the notes call for. -/
inductive Agrees {α : Type} (base : List Diagnostic) :
    Except (Option Diagnostic) α × Notes → Outcome α → Prop where
  | done (a : α) (rest : List Token) (commas : List Comma) :
    Agrees base (.ok a, ⟨rest, commas⟩) (.done a ⟨rest, base ++ Comma.reports commas⟩)
  | failed {d : Diagnostic} (h : d.IsFatal) (rest : List Token) (commas : List Comma) :
    Agrees base (.error (some d), ⟨rest, commas⟩) (.failed d (base ++ Comma.reports commas))
  | outOfFuel (x : Except (Option Diagnostic) α × Notes) : Agrees base x .outOfFuel

namespace Agrees

variable {α : Type} {base : List Diagnostic} {x : Except (Option Diagnostic) α × Notes} {a : α}
  {next : Cursor} {outcome : Outcome α}

theorem unique (h : Agrees base x (.done a next)) (h' : Agrees base x outcome)
    (ho : outcome ≠ .outOfFuel) : outcome = .done a next := by
  cases h
  cases h' with
  | done => rfl
  | outOfFuel => exact absurd rfl ho

theorem reports (h : Agrees base x (.done a next)) :
    ∃ commas, next.reports = base ++ Comma.reports commas := by
  cases h with
  | done _ _ commas => exact ⟨commas, rfl⟩

end Agrees

/-- Whatever has been reported before, the rule agrees with the reading. -/
def Noting.Follows {α : Type} (x : Noting α) (r : Rule α) : Prop :=
  ∀ (base : List Diagnostic) (notes : Notes),
    Agrees base (x notes) (r ⟨notes.rest, base ++ Comma.reports notes.commas⟩)

/-- What a look does with reports: nothing. -/
theorem Look.cases {α : Type} {r : Rule α} (h : Look r) (rest : List Token) :
    (∃ a rest', ∀ reports, r ⟨rest, reports⟩ = .done a ⟨rest', reports⟩) ∨
      ∃ d : Diagnostic, d.IsFatal ∧ ∀ reports, r ⟨rest, reports⟩ = .failed d reports := by
  cases h with
  | accept? kind =>
    left
    cases rest with
    | nil => exact ⟨none, [], fun _ => rfl⟩
    | cons t rest =>
      by_cases hk : (t.kind != .eof && t.kind == kind) = true
      · exact ⟨some t, rest, fun _ => if_pos hk⟩
      · exact ⟨none, t :: rest, fun _ => if_neg hk⟩
  | acceptSome? f =>
    left
    cases rest with
    | nil => exact ⟨none, [], fun _ => rfl⟩
    | cons t rest =>
      cases hk : f t.kind with
      | some a => exact ⟨some (a, t), rest, fun _ => by simp only [Grammar.acceptSome?, hk]⟩
      | none => exact ⟨none, t :: rest, fun _ => by simp only [Grammar.acceptSome?, hk]⟩
  | sees kind => exact .inl ⟨Cursor.sees ⟨rest, []⟩ kind, rest, fun _ => rfl⟩
  | atEnd => exact .inl ⟨Cursor.atEnd ⟨rest, []⟩, rest, fun _ => rfl⟩
  | @fault _ line f hf =>
    exact .inr ⟨⟨line, .grammar f⟩, fun what h => hf what (Fault.grammar.inj h), fun _ => rfl⟩
  | @faultHere _ f hf =>
    exact .inr ⟨⟨Cursor.line ⟨rest, []⟩, .grammar f⟩,
      fun what h => hf what (Fault.grammar.inj h), fun _ => rfl⟩

namespace Noting.Follows

variable {α β : Type}

theorem look {r : Rule α} (h : Look r) : Follows (Noting.look r) r := by
  intro base notes
  unfold Noting.look
  rcases h.cases notes.rest with ⟨a, rest, hr⟩ | ⟨d, hd, hr⟩
  · rw [hr, hr]
    exact .done a rest notes.commas
  · rw [hr, hr]
    exact .failed hd notes.rest notes.commas

theorem bind {x : Noting α} {r : Rule α} {f : α → Noting β} {k : α → Rule β}
    (h : Follows x r) (hk : ∀ a, Follows (f a) (k a)) : Follows (x >>= f) (r >>= k) := by
  intro base notes
  rw [Noting.bind_apply, Rule.bind_apply]
  have hx := h base notes
  revert hx
  generalize x notes = reading, r ⟨notes.rest, base ++ Comma.reports notes.commas⟩ = outcome
  rintro (⟨a, rest, commas⟩ | ⟨hd, rest, commas⟩ | _)
  · exact hk a base ⟨rest, commas⟩
  · exact .failed hd rest commas
  · exact .outOfFuel _

theorem pure (a : α) : Follows (Pure.pure a) (Pure.pure a) := fun _ notes =>
  .done a notes.rest notes.commas

/-- Exactly the comma behind the last allowed entry is reported. -/
theorem note (what : Capped) (entries : Nat) :
    Follows (Noting.note what entries) (lengthCheck what entries) := by
  intro base notes
  rw [lengthCheck_apply, List.append_assoc, ← Comma.reports_append]
  exact .done () _ _

theorem separator (what : Capped) (entries : Nat) :
    Follows (Noting.separator what entries) (Grammar.separator what entries) := by
  refine bind (look (.accept? _)) fun comma? => ?_
  cases comma? with
  | none => exact pure false
  | some comma => exact bind (note what entries) fun _ => pure true

theorem reader : Noting.reader.Matches fun _ => Follows where
  fuelSpent _ := fun _ _ => .outOfFuel _
  pure := pure
  look h _ := look h
  separator := separator
  bind := bind

end Noting.Follows

/-- What is read of a token list before the first fault that stops the reading, the commas of its
lists, and that fault. -/
structure Noted where
  statements : List Stmt
  commas : List Comma
  stop : Option Diagnostic

def noteProgram : Nat → Notes → Option Noted
  | 0, _ => none
  | fuel + 1, notes =>
    if Cursor.atEnd ⟨notes.rest, []⟩ then some ⟨[], notes.commas, none⟩
    else
      match Noting.reader.declaration fuel .top notes with
      | (.ok s, next) =>
        (noteProgram fuel next).map fun n => { n with statements := s :: n.statements }
      | (.error (some fault), next) => some ⟨[], next.commas, some fault⟩
      | (.error none, _) => none

/-- Reads a token list and takes notes. -/
def noted (tokens : List Token) : Noted :=
  (noteProgram (enoughFuel tokens) ⟨tokens, []⟩).getD ⟨[], [], none⟩

theorem declaration_follows {fuel fuel' : Nat} (hf : fuel ≤ fuel') (ctx : Context) :
    Noting.Follows (Noting.reader.declaration fuel' ctx) (declaration fuel ctx) :=
  (Noting.Follows.reader.statementsMatch hf).declaration ctx

/-- With as much fuel or more, the notes tell the statements and the reports. -/
theorem noteProgram_follows {fuel fuel' : Nat} (hf : fuel ≤ fuel') (base : List Diagnostic)
    (notes : Notes) {p : Parsed}
    (hp : program fuel ⟨notes.rest, base ++ Comma.reports notes.commas⟩ = some p) :
    ∃ n, noteProgram fuel' notes = some n ∧ (∀ d ∈ n.stop, d.IsFatal) ∧
      p = ⟨n.statements, base ++ Comma.reports n.commas ++ n.stop.toList⟩ := by
  induction fuel generalizing fuel' notes p with
  | zero => cases hp
  | succ fuel ih =>
    cases fuel' with
    | zero => exact absurd hf (Nat.not_succ_le_zero _)
    | succ fuel' =>
      have hf := Nat.le_of_succ_le_succ hf
      have hends : Cursor.atEnd ⟨notes.rest, base ++ Comma.reports notes.commas⟩ =
          Cursor.atEnd ⟨notes.rest, []⟩ := rfl
      have hd := declaration_follows hf .top base notes
      rw [program, hends] at hp
      rw [noteProgram]
      split at hp
      next hend =>
        cases hp
        exact ⟨⟨[], notes.commas, none⟩, if_pos hend, by simp, by simp⟩
      next hend =>
        rw [if_neg hend]
        revert hd hp
        generalize Noting.reader.declaration fuel' .top notes = reading,
          declaration fuel .top ⟨notes.rest, base ++ Comma.reports notes.commas⟩ = outcome
        intro hd hp
        cases hd with
        | outOfFuel => cases hp
        | @failed d hd rest commas =>
          cases hp
          exact ⟨⟨[], commas, some d⟩, rfl, by simpa using hd, rfl⟩
        | done s rest commas =>
          obtain ⟨p', hp', rfl⟩ := Option.map_eq_some_iff.1 hp
          obtain ⟨n, hn, hfatal, rfl⟩ := ih hf ⟨rest, commas⟩ hp'
          exact ⟨{ n with statements := s :: n.statements }, by simp only [hn, Option.map_some],
            hfatal, rfl⟩

/-- The reading of a token list reports each list at the comma behind its last allowed entry, and the
fault that stopped it. -/
theorem parse_eq_noted (tokens : List Token) : (∀ d ∈ (noted tokens).stop, d.IsFatal) ∧
    parse tokens = ⟨(noted tokens).statements,
      Comma.reports (noted tokens).commas ++ (noted tokens).stop.toList⟩ := by
  obtain ⟨n, hn, hfatal, hp⟩ :=
    noteProgram_follows (Nat.le_refl _) [] ⟨tokens, []⟩ (program_eq_parse tokens)
  rw [noted, hn, Option.getD_some, hp]
  exact ⟨hfatal, rfl⟩

/-- Neither the fuel nor what has been reported before matters to a reading that ends. -/
theorem program_behind {fuel : Nat} {tokens : List Token} {reports : List Diagnostic} {p : Parsed}
    (hp : program fuel ⟨tokens, reports⟩ = some p) :
    p = ⟨(parse tokens).statements, reports ++ (parse tokens).diagnostics⟩ := by
  have hle := Nat.le_max_left fuel (enoughFuel tokens)
  have hle' := Nat.le_max_right fuel (enoughFuel tokens)
  rw [← List.append_nil reports] at hp
  obtain ⟨n, hn, -, rfl⟩ := noteProgram_follows hle reports ⟨tokens, []⟩ hp
  obtain ⟨n', hn', -, hparse⟩ :=
    noteProgram_follows hle' [] ⟨tokens, []⟩ (program_eq_parse tokens)
  rw [hn] at hn'
  cases hn'
  rw [hparse, List.nil_append, List.append_assoc]

section
variable {fuel fuel' : Nat} {ctx : Context} {c next : Cursor} {s : Stmt}

theorem declaration_agrees (hf : fuel ≤ fuel') (ctx : Context) (c : Cursor) :
    Agrees c.reports (Noting.reader.declaration fuel' ctx ⟨c.rest, []⟩)
      (declaration fuel ctx c) := by
  have h := declaration_follows hf ctx c.reports ⟨c.rest, []⟩
  rwa [show c.reports ++ Comma.reports [] = c.reports from List.append_nil _] at h

/-- Two amounts of fuel, both sufficient. -/
theorem declaration_unique (h : declaration fuel ctx c = .done s next)
    (h' : declaration fuel' ctx c ≠ .outOfFuel) : declaration fuel' ctx c = .done s next := by
  have hone := declaration_agrees (Nat.le_max_left fuel fuel') ctx c
  have hother := declaration_agrees (Nat.le_max_right fuel fuel') ctx c
  rw [h] at hone
  exact hone.unique hother h'

/-- What a rule has reported when it is done is about the length of lists. -/
theorem declaration_reports (h : declaration fuel ctx c = .done s next) :
    ∃ commas, next.reports = c.reports ++ Comma.reports commas := by
  have hagrees := declaration_agrees (Nat.le_refl fuel) ctx c
  rw [h] at hagrees
  exact hagrees.reports

end

end Grammar
end Lox
