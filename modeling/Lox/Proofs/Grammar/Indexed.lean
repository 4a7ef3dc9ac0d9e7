import Lox.Proofs.Grammar.Recovery

/-! The grammar over a list of tokens that is read by index: which tokens the reading looks at, and
how far it gets. -/
namespace Lox.Grammar

/-- A token is looked at by its index when so many tokens have been taken. -/
structure Access where
  taken : Nat
  index : Nat

/-- How many tokens have been taken, what has been reported, and which tokens have been looked at,
oldest first. -/
structure Trail where
  taken : Nat
  reports : List Diagnostic
  accesses : List Access

namespace Trail

def start : Trail := ⟨0, [], []⟩

def note (trail : Trail) (index : Nat) : Trail :=
  { trail with accesses := trail.accesses ++ [⟨trail.taken, index⟩] }

def take (trail : Trail) : Trail := { trail with taken := trail.taken + 1 }

def report (trail : Trail) (d : Diagnostic) : Trail :=
  { trail with reports := trail.reports ++ [d] }

end Trail

inductive Stop where
  | fault (d : Diagnostic)
  | outOfFuel
  /-- An index is not one of the list. -/
  | outOfRange

/-- Readings of a fixed token list. -/
abbrev Indexing := ReaderT (List Token) (ExceptT Stop (StateM Trail))

namespace Indexing

def tokenAt (index : Nat) : Indexing Token := fun tokens trail =>
  match tokens[index]? with
  | some t => (.ok t, trail.note index)
  | none => (.error .outOfRange, trail.note index)

/-- The next token. When the list is used up this is its last token again. -/
def peek : Indexing Token := fun tokens trail =>
  tokenAt (min trail.taken (tokens.length - 1)) tokens trail

/-- The token that was taken last. -/
def previous : Indexing Token := fun tokens trail => tokenAt (trail.taken - 1) tokens trail

def atEnd : Indexing Bool := do
  let t ← peek
  pure (t.kind == .eof)

/-- Takes the next token unless it marks the end. -/
def advance : Indexing Token := do
  if ← atEnd then previous
  else
    modify Trail.take
    previous

/-- What a rule makes of one token, and whether it takes the token. -/
def judge {α : Type} (r : Rule α) (t : Token) : Indexing (α × Bool) :=
  match r ⟨[t], []⟩ with
  | .done a next => pure (a, next.rest.isEmpty)
  | .failed fault _ => throw (.fault fault)
  | .outOfFuel => throw .outOfFuel

/-- Takes the next token and says of it what the rule says. -/
def takeAs {α : Type} (r : Rule α) : Indexing α := do
  let t ← advance
  let judged ← judge r t
  pure judged.1

/-- A rule is decided by the next token. -/
def look {α : Type} (r : Rule α) : Indexing α := do
  let t ← peek
  let judged ← judge r t
  if judged.2 then takeAs r else pure judged.1

def reportHere (f : GrammarFault) : Indexing Unit := do
  let t ← peek
  modify (·.report ⟨t.line, .grammar f⟩)

def separator (what : Capped) (entries : Nat) : Indexing Bool := do
  match ← look (accept? .comma) with
  | none => pure false
  | some _ =>
    if entries = Capped.limit then reportHere (.tooMany what)
    pure true

def reader : Reader Indexing where
  fuelSpent := throw .outOfFuel
  look r _ := look r
  separator := separator

/-- Reports the fault that stops a reading. -/
def reported {α : Type} (x : Indexing α) : Indexing (Option α) := fun tokens trail =>
  match x tokens trail with
  | (.ok a, next) => (.ok (some a), next)
  | (.error (.fault d), next) => (.ok none, next.report d)
  | (.error stop, next) => (.error stop, next)

def program : Nat → Indexing (List Stmt)
  | 0 => throw .outOfFuel
  | fuel + 1 => do
    if ← atEnd then pure []
    else
      match ← reported (reader.declaration fuel .top) with
      | none => pure []
      | some s =>
        let more ← program fuel
        pure (s :: more)

/-- Reads a token list from its start. An empty list is not looked at. -/
def run (fuel : Nat) : List Token → Except Stop Parsed × Trail
  | [] => (.ok ⟨[], []⟩, .start)
  | t :: rest =>
    match program fuel (t :: rest) .start with
    | (.ok statements, trail) => (.ok ⟨statements, trail.reports⟩, trail)
    | (.error stop, trail) => (.error stop, trail)

theorem bind_apply {α β : Type} (x : Indexing α) (f : α → Indexing β) (tokens : List Token)
    (trail : Trail) : (x >>= f) tokens trail = match x tokens trail with
      | (.ok a, next) => f a tokens next
      | (.error e, next) => (.error e, next) := by
  show (match x tokens trail with | (a, next) => ExceptT.bindCont (fun a => f a tokens) a next) = _
  rcases x tokens trail with ⟨_ | _, _⟩ <;> rfl

section
variable {α β : Type} {x : Indexing α} {tokens : List Token} {trail next : Trail}

theorem bind_of_ok {a : α} (h : x tokens trail = (.ok a, next)) (f : α → Indexing β) :
    (x >>= f) tokens trail = f a tokens next := by
  rw [bind_apply, h]

theorem bind_of_error {e : Stop} (h : x tokens trail = (.error e, next)) (f : α → Indexing β) :
    (x >>= f) tokens trail = (.error e, next) := by
  rw [bind_apply, h]

theorem judge_of_done {r : Rule α} {t : Token} {a : α} {c : Cursor}
    (h : r ⟨[t], []⟩ = .done a c) : judge r t tokens trail = (.ok (a, c.rest.isEmpty), trail) := by
  rw [judge, h]
  rfl

theorem judge_of_failed {r : Rule α} {t : Token} {d : Diagnostic} {reports : List Diagnostic}
    (h : r ⟨[t], []⟩ = .failed d reports) :
    judge r t tokens trail = (.error (.fault d), trail) := by
  rw [judge, h]
  rfl

end

end Indexing

/-! Trails. -/

/-- From one trail to a later one: tokens are taken and never given back, and no token behind the
next one is looked at. -/
structure Trail.Leads (trail next : Trail) : Prop where
  taken_le : trail.taken ≤ next.taken
  accesses : ∃ more, next.accesses = trail.accesses ++ more ∧
    more.Pairwise (·.taken ≤ ·.taken) ∧
    ∀ a ∈ more, a.index ≤ a.taken ∧ trail.taken ≤ a.taken ∧ a.taken ≤ next.taken

namespace Trail.Leads

variable {trail mid next : Trail}

theorem refl (trail : Trail) : trail.Leads trail := ⟨Nat.le_refl _, [], by simp⟩

theorem trans (h : trail.Leads mid) (h' : mid.Leads next) : trail.Leads next := by
  obtain ⟨hle, more, hmore, hsorted, hinside⟩ := h
  obtain ⟨hle', more', hmore', hsorted', hinside'⟩ := h'
  refine ⟨Nat.le_trans hle hle', more ++ more', ?_, ?_, fun a ha => ?_⟩
  · rw [hmore', hmore, List.append_assoc]
  · refine List.pairwise_append.2 ⟨hsorted, hsorted', fun a ha b hb => ?_⟩
    exact Nat.le_trans (hinside a ha).2.2 (hinside' b hb).2.1
  · rcases List.mem_append.1 ha with ha | ha
    · obtain ⟨hindex, hfrom, hto⟩ := hinside a ha
      exact ⟨hindex, hfrom, Nat.le_trans hto hle'⟩
    · obtain ⟨hindex, hfrom, hto⟩ := hinside' a ha
      exact ⟨hindex, Nat.le_trans hle hfrom, hto⟩

theorem note (trail : Trail) {index : Nat} (h : index ≤ trail.taken) :
    trail.Leads (trail.note index) :=
  ⟨Nat.le_refl _, [⟨trail.taken, index⟩], rfl, by simp, by simpa [Trail.note] using h⟩

theorem take (trail : Trail) : trail.Leads trail.take := ⟨Nat.le_succ _, [], by simp [Trail.take]⟩

theorem report (trail : Trail) (d : Diagnostic) : trail.Leads (trail.report d) :=
  ⟨Nat.le_refl _, [], by simp [Trail.report]⟩

end Trail.Leads

/-- A look is decided by the next token, and takes it or leaves it. -/
theorem Look.decided {α : Type} {r : Rule α} (h : Look r) (t : Token) :
    (∃ a, ∀ rest reports, r ⟨t :: rest, reports⟩ = .done a ⟨rest, reports⟩) ∨
      (∃ a, ∀ rest reports, r ⟨t :: rest, reports⟩ = .done a ⟨t :: rest, reports⟩) ∨
      ∃ d, ∀ rest reports, r ⟨t :: rest, reports⟩ = .failed d reports := by
  cases h with
  | accept? kind =>
    by_cases hk : (t.kind != .eof && t.kind == kind) = true
    · exact .inl ⟨some t, fun _ _ => if_pos hk⟩
    · exact .inr (.inl ⟨none, fun _ _ => if_neg hk⟩)
  | acceptSome? f =>
    cases hk : f t.kind with
    | some a => exact .inl ⟨some (a, t), fun _ _ => by simp only [Grammar.acceptSome?, hk]⟩
    | none => exact .inr (.inl ⟨none, fun _ _ => by simp only [Grammar.acceptSome?, hk]⟩)
  | sees kind => exact .inr (.inl ⟨t.kind != .eof && t.kind == kind, fun _ _ => rfl⟩)
  | atEnd => exact .inr (.inl ⟨t.kind == .eof, fun _ _ => rfl⟩)
  | @fault _ line f => exact .inr (.inr ⟨⟨line, .grammar f⟩, fun _ _ => rfl⟩)
  | @faultHere _ f => exact .inr (.inr ⟨⟨t.line, .grammar f⟩, fun _ _ => rfl⟩)

/-! Two token lists with the same tokens up to their first mark of the end: one is read by index,
the other one by the rules. -/

/-- The tokens up to the first mark of the end, and what two lists have behind it. -/
structure Fork where
  before : List Token
  last : Token
  behind : List Token
  behind' : List Token
  unended : ∀ t ∈ before, t.kind ≠ .eof
  ends : last.kind = .eof

namespace Fork

variable (k : Fork)

/-- The list that is read by index. -/
def indexed : List Token := k.before ++ k.last :: k.behind

/-- What the rules have to read when so many tokens have been taken. -/
def rest (taken : Nat) : List Token := (k.before ++ k.last :: k.behind').drop taken

/-- Up to the mark of the end both lists show the same token. -/
theorem next {taken : Nat} (h : taken ≤ k.before.length) :
    ∃ t, k.indexed[taken]? = some t ∧ k.rest taken = t :: k.rest (taken + 1) ∧
      (t.kind = .eof ↔ taken = k.before.length) := by
  rcases Nat.lt_or_eq_of_le h with hlt | rfl
  · refine ⟨k.before[taken], ?_, ?_, ?_⟩
    · rw [indexed, List.getElem?_append_left hlt, List.getElem?_eq_getElem hlt]
    · have hlt' : taken < (k.before ++ k.last :: k.behind').length := by
        rw [List.length_append]
        omega
      rw [rest, List.drop_eq_getElem_cons hlt', List.getElem_append_left hlt]
      rfl
    · exact iff_of_false (k.unended _ (List.getElem_mem hlt)) (Nat.ne_of_lt hlt)
  · refine ⟨k.last, by simp [indexed], by simp [rest], iff_of_true k.ends rfl⟩

theorem lt_length {index : Nat} (h : index ≤ k.before.length) : index < k.indexed.length := by
  rw [indexed, List.length_append, List.length_cons]
  omega

end Fork

namespace Indexing

variable (k : Fork) {trail : Trail}

theorem tokenAt_eq {tokens : List Token} {index : Nat} {t : Token} (h : tokens[index]? = some t) :
    tokenAt index tokens trail = (.ok t, trail.note index) := by
  rw [tokenAt, h]

theorem peek_eq (h : trail.taken ≤ k.before.length) {t : Token}
    (ht : k.indexed[trail.taken]? = some t) :
    peek k.indexed trail = (.ok t, trail.note trail.taken) := by
  have hlt := k.lt_length h
  have hmin : min trail.taken (k.indexed.length - 1) = trail.taken :=
    Nat.min_eq_left (by omega)
  rw [peek, hmin, tokenAt_eq ht]

theorem atEnd_eq (h : trail.taken ≤ k.before.length) {t : Token}
    (ht : k.indexed[trail.taken]? = some t) :
    atEnd k.indexed trail = (.ok (t.kind == .eof), trail.note trail.taken) := by
  exact bind_of_ok (peek_eq k h ht) _

/-- In front of the first mark of the end the next token is taken, and it is the one that is found
behind it. -/
theorem advance_eq (h : trail.taken < k.before.length) {t : Token}
    (ht : k.indexed[trail.taken]? = some t) (hk : t.kind ≠ .eof) :
    advance k.indexed trail =
      (.ok t, ((trail.note trail.taken).take).note trail.taken) := by
  have hopen : (t.kind == .eof) = false := by simpa using hk
  have hprevious : previous k.indexed (trail.note trail.taken).take =
      (.ok t, ((trail.note trail.taken).take).note trail.taken) := tokenAt_eq ht
  rw [advance, bind_of_ok (atEnd_eq k (Nat.le_of_lt h) ht), hopen]
  exact hprevious

theorem takeAs_eq (h : trail.taken < k.before.length) {t : Token}
    (ht : k.indexed[trail.taken]? = some t) (hk : t.kind ≠ .eof) {α : Type} {r : Rule α} {a : α}
    {c : Cursor} (hr : r ⟨[t], []⟩ = .done a c) : takeAs r k.indexed trail =
      (.ok a, ((trail.note trail.taken).take).note trail.taken) := by
  rw [takeAs, bind_of_ok (advance_eq k h ht hk), bind_of_ok (judge_of_done hr)]
  rfl

/-- A reading ends as the rule does, at the same token and with the same reports. -/
inductive Ends (trail : Trail) {α : Type} : Except Stop α × Trail → Outcome α → Prop where
  | done (a : α) {next : Trail} : trail.Leads next → next.taken ≤ k.before.length →
    Ends trail (.ok a, next) (.done a ⟨k.rest next.taken, next.reports⟩)
  | failed (d : Diagnostic) {next : Trail} : trail.Leads next → next.taken ≤ k.before.length →
    Ends trail (.error (.fault d), next) (.failed d next.reports)
  | outOfFuel (x : Except Stop α × Trail) : Ends trail x .outOfFuel

/-- Wherever the reading starts, up to the first mark of the end, it ends as the rule does. -/
def Follows {α : Type} (x : Indexing α) (r : Rule α) : Prop :=
  ∀ trail : Trail, trail.taken ≤ k.before.length →
    Ends k trail (x k.indexed trail) (r ⟨k.rest trail.taken, trail.reports⟩)

namespace Ends

variable {k} {α : Type} {x : Except Stop α × Trail} {outcome : Outcome α} {mid : Trail}

theorem after (hlead : trail.Leads mid) (h : Ends k mid x outcome) : Ends k trail x outcome := by
  cases h with
  | done a h hle => exact .done a (hlead.trans h) hle
  | failed d h hle => exact .failed d (hlead.trans h) hle
  | outOfFuel => exact .outOfFuel _

end Ends

namespace Follows

variable {k} {α β : Type}

theorem pure (a : α) : Follows k (Pure.pure a) (Pure.pure a) := fun trail h =>
  .done a (.refl trail) h

theorem bind {x : Indexing α} {r : Rule α} {f : α → Indexing β} {g : α → Rule β}
    (h : Follows k x r) (hf : ∀ a, Follows k (f a) (g a)) : Follows k (x >>= f) (r >>= g) := by
  intro trail htrail
  rw [bind_apply, Rule.bind_apply]
  have hx := h trail htrail
  revert hx
  generalize x k.indexed trail = reading, r ⟨k.rest trail.taken, trail.reports⟩ = outcome
  rintro (⟨a, hlead, hle⟩ | ⟨d, hlead, hle⟩ | _)
  · exact (hf a _ hle).after hlead
  · exact .failed d hlead hle
  · exact .outOfFuel _

theorem look {r : Rule α} (h : Look r) (hkeep : r.KeepsEnd) : Follows k (look r) r := by
  intro trail htrail
  obtain ⟨t, ht, hrest, hend⟩ := k.next htrail
  have hnote := Trail.Leads.note trail (Nat.le_refl trail.taken)
  rw [Indexing.look, bind_of_ok (peek_eq k htrail ht), hrest]
  rcases h.decided t with ⟨a, hr⟩ | ⟨a, hr⟩ | ⟨d, hr⟩
  · -- The token is taken, so it does not mark the end.
    have hopen : t.kind ≠ .eof := fun hk => by
      have hkept := hkeep t [] [] a _ hk (hr [] [])
      cases hkept
    have hlt : (trail.note trail.taken).taken < k.before.length :=
      Nat.lt_of_le_of_ne htrail fun he => hopen (hend.2 he)
    have htake := takeAs_eq k hlt ht hopen (hr [] [])
    rw [hr, bind_of_ok (judge_of_done (hr [] [])), List.isEmpty_nil, if_pos rfl, htake]
    exact .done a (((hnote.trans (.note _ (Nat.le_refl _))).trans (.take _)).trans
      (.note _ (Nat.le_succ _))) hlt
  · rw [hr, bind_of_ok (judge_of_done (hr [] [])), List.isEmpty_cons,
      if_neg Bool.false_ne_true, ← hrest]
    exact .done a hnote htrail
  · rw [hr, bind_of_error (judge_of_failed (hr [] []))]
    exact .failed d hnote htrail

theorem reportHere (f : GrammarFault) : Follows k (reportHere f) (Grammar.reportHere f) := by
  intro trail htrail
  obtain ⟨t, ht, hrest, -⟩ := k.next htrail
  have hline : Cursor.line ⟨k.rest trail.taken, trail.reports⟩ = t.line := by
    rw [hrest]
    rfl
  rw [Indexing.reportHere, bind_of_ok (peek_eq k htrail ht), Grammar.reportHere, hline]
  exact .done () ((Trail.Leads.note trail (Nat.le_refl _)).trans (.report _ _)) htrail

theorem separator (what : Capped) (entries : Nat) :
    Follows k (separator what entries) (Grammar.separator what entries) := by
  refine bind (look (.accept? _) (.accept? _)) fun comma? => ?_
  cases comma? with
  | none => exact pure false
  | some comma =>
    simp only [lengthCheck]
    split
    next => exact bind (reportHere _) fun _ => pure true
    next => exact pure true

theorem reader : Indexing.reader.Matches fun _ => Follows k where
  fuelSpent _ := fun _ _ => .outOfFuel _
  pure := pure
  look := look
  separator := separator
  bind := bind

theorem declaration {fuel fuel' : Nat} (hf : fuel ≤ fuel') (ctx : Context) :
    Follows k (Indexing.reader.declaration fuel' ctx) (Grammar.declaration fuel ctx) :=
  (reader.statementsMatch hf).declaration ctx

end Follows
/-- A declaration that is read takes a token. -/
theorem declaration_advances {fuel fuel' : Nat} (hf : fuel ≤ fuel') (ctx : Context)
    (hfuel : 16 * (k.rest trail.taken).length + 12 ≤ fuel)
    (htrail : trail.taken ≤ k.before.length) :
    ∃ next, trail.Leads next ∧ next.taken ≤ k.before.length ∧
      ((∃ d, reader.declaration fuel' ctx k.indexed trail = (.error (.fault d), next)) ∨
        ∃ s, reader.declaration fuel' ctx k.indexed trail = (.ok s, next) ∧
          trail.taken < next.taken) := by
  have hends : Grammar.declaration fuel ctx ⟨k.rest trail.taken, trail.reports⟩ ≠ .outOfFuel :=
    (statementsFinish fuel).declaration hfuel
  have htakes (s : Stmt) (next : Cursor)
      (h : Grammar.declaration fuel ctx ⟨k.rest trail.taken, trail.reports⟩ = .done s next) :=
    declaration_takes h
  have hd := Follows.declaration (k := k) hf ctx trail htrail
  revert hd hends htakes
  generalize reader.declaration fuel' ctx k.indexed trail = reading,
    Grammar.declaration fuel ctx ⟨k.rest trail.taken, trail.reports⟩ = outcome
  rintro hends htakes (⟨s, hlead, hle⟩ | ⟨d, hlead, hle⟩ | _)
  case done next =>
    refine ⟨next, hlead, hle, .inr ⟨s, rfl, ?_⟩⟩
    obtain ⟨t, used, hrest, -⟩ := htakes s _ rfl
    refine Nat.lt_of_not_le fun hback => ?_
    have hsame : next.taken = trail.taken := Nat.le_antisymm hback hlead.taken_le
    have hlength : (k.rest trail.taken).length = (t :: used ++ k.rest next.taken).length :=
      congrArg List.length hrest
    rw [hsame, List.length_append, List.length_cons] at hlength
    omega
  case failed next => exact ⟨next, hlead, hle, .inl ⟨d, rfl⟩⟩
  case outOfFuel => exact absurd rfl hends

/-- What the rules read of one list is read of the other one by index. -/
theorem program_follows {fuel fuel' : Nat} (hf : fuel ≤ fuel') {trail : Trail}
    (htrail : trail.taken ≤ k.before.length) {p : Parsed}
    (hp : Grammar.program fuel ⟨k.rest trail.taken, trail.reports⟩ = some p) :
    ∃ next, program fuel' k.indexed trail = (.ok p.statements, next) ∧
      next.reports = p.diagnostics ∧ trail.Leads next ∧ next.taken ≤ k.before.length := by
  induction fuel generalizing fuel' trail p with
  | zero => cases hp
  | succ fuel ih =>
    cases fuel' with
    | zero => exact absurd hf (Nat.not_succ_le_zero _)
    | succ fuel' =>
      have hf := Nat.le_of_succ_le_succ hf
      obtain ⟨t, ht, hrest, -⟩ := k.next htrail
      have hends : Cursor.atEnd ⟨k.rest trail.taken, trail.reports⟩ = (t.kind == .eof) := by
        rw [hrest]
        rfl
      have hnote := Trail.Leads.note trail (Nat.le_refl trail.taken)
      rw [Grammar.program, hends] at hp
      rw [program, bind_of_ok (atEnd_eq k htrail ht)]
      split at hp
      next hend =>
        cases hp
        rw [if_pos hend]
        exact ⟨_, rfl, rfl, hnote, htrail⟩
      next hend =>
        rw [if_neg hend, bind_apply, reported]
        have hd := Follows.declaration (k := k) hf .top (trail.note trail.taken) htrail
        revert hd hp
        generalize reader.declaration fuel' .top k.indexed (trail.note trail.taken) = reading
        show _ → Ends k _ reading (Grammar.declaration fuel .top
          ⟨k.rest trail.taken, trail.reports⟩) → _
        generalize Grammar.declaration fuel .top ⟨k.rest trail.taken, trail.reports⟩ = outcome
        intro hp hd
        cases hd with
        | outOfFuel => cases hp
        | @failed d next hlead hle =>
          cases hp
          exact ⟨next.report d, rfl, rfl, hnote.trans (hlead.trans (.report _ _)), hle⟩
        | @done s next hlead hle =>
          obtain ⟨p', hp', rfl⟩ := Option.map_eq_some_iff.1 hp
          obtain ⟨last, hlast, hreports, hlead', hle'⟩ := ih hf hle hp'
          exact ⟨last, bind_of_ok hlast _, hreports, hnote.trans (hlead.trans hlead'), hle'⟩

theorem run_eq {fuel : Nat} (hf : enoughFuel (k.rest 0) ≤ fuel) :
    ∃ trail, run fuel k.indexed = (.ok (parse (k.rest 0)), trail) ∧ Trail.start.Leads trail ∧
      trail.taken ≤ k.before.length := by
  have hp : Grammar.program _ ⟨k.rest Trail.start.taken, Trail.start.reports⟩ = _ :=
    program_eq_parse (k.rest 0)
  obtain ⟨trail, hrun, hreports, hlead, hle⟩ := program_follows k hf (Nat.zero_le _) hp
  refine ⟨trail, ?_, hlead, hle⟩
  obtain ⟨t, rest, hcons⟩ := List.exists_cons_of_ne_nil (show k.indexed ≠ [] by simp [Fork.indexed])
  rw [hcons] at hrun ⊢
  rw [run, hrun]
  simp only [hreports]

end Indexing

/-! Token lists that end with a mark of the end. -/

/-- The list is empty, or its last token marks the end. -/
def Ended (tokens : List Token) : Prop := ∀ t ∈ tokens.getLast?, t.kind = .eof

/-- Where the first mark of the end is. -/
def firstEnd (tokens : List Token) : Nat := tokens.findIdx (·.kind == .eof)

/-- The tokens up to the first mark of the end, with the mark. -/
def uptoEnd (tokens : List Token) : List Token := tokens.take (firstEnd tokens + 1)

theorem firstEnd_append {before : List Token} {last : Token} (hb : ∀ t ∈ before, t.kind ≠ .eof)
    (hl : last.kind = .eof) (behind : List Token) :
    firstEnd (before ++ last :: behind) = before.length := by
  induction before with
  | nil => simp [firstEnd, List.findIdx_cons, hl]
  | cons t before ih =>
    obtain ⟨ht, hb⟩ := List.forall_mem_cons.1 hb
    have hopen : (t.kind == .eof) = false := by simpa using ht
    have ih := ih hb
    rw [firstEnd] at ih ⊢
    rw [List.cons_append, List.findIdx_cons, hopen, cond_false, ih, List.length_cons]

/-- A list with a mark of the end, cut behind the first one. -/
theorem exists_fork {tokens : List Token} (h : ∃ t ∈ tokens, t.kind = .eof) :
    ∃ before last behind, tokens = before ++ last :: behind ∧
      (∀ t ∈ before, t.kind ≠ .eof) ∧ last.kind = .eof := by
  induction tokens with
  | nil => simp at h
  | cons t tokens ih =>
    by_cases ht : t.kind = .eof
    · exact ⟨[], t, tokens, rfl, by simp, ht⟩
    · obtain ⟨before, last, behind, rfl, hb, hl⟩ := ih (by simpa [ht] using h)
      exact ⟨t :: before, last, behind, rfl, List.forall_mem_cons.2 ⟨ht, hb⟩, hl⟩

/-- Beside itself. -/
theorem Ended.fork {tokens : List Token} (h : Ended tokens) (hne : tokens ≠ []) :
    ∃ k : Fork, k.indexed = tokens ∧ k.rest 0 = tokens := by
  obtain ⟨before, last, behind, rfl, hb, hl⟩ := exists_fork
    ⟨tokens.getLast hne, List.getLast_mem hne, h _ (List.getLast?_eq_some_getLast hne ▸ rfl)⟩
  exact ⟨⟨before, last, behind, behind, hb, hl⟩, rfl, rfl⟩

theorem parse_fork (k : Fork) : parse k.indexed = parse (k.rest 0) := by
  obtain ⟨trail, hrun, -⟩ := Indexing.run_eq k (Nat.le_max_right (enoughFuel k.indexed) _)
  obtain ⟨trail', hrun', -⟩ :=
    Indexing.run_eq { k with behind' := k.behind } (Nat.le_max_left _ (enoughFuel (k.rest 0)))
  exact Except.ok.inj (congrArg Prod.fst (hrun'.symm.trans hrun))

/-- No token behind the first mark of the end has been taken or looked at, and tokens that were
taken have not been given back. -/
structure Trail.Inside (tokens : List Token) (trail : Trail) : Prop where
  taken_le : trail.taken ≤ firstEnd tokens
  accesses : ∀ a ∈ trail.accesses,
    a.index < tokens.length ∧ a.index ≤ firstEnd tokens ∧ a.taken ≤ firstEnd tokens
  sorted : trail.accesses.Pairwise (·.taken ≤ ·.taken)

theorem Fork.firstEnd_indexed (k : Fork) : firstEnd k.indexed = k.before.length :=
  firstEnd_append k.unended k.ends k.behind

theorem Trail.Leads.inside {k : Fork} {trail : Trail} (h : Trail.start.Leads trail)
    (hle : trail.taken ≤ k.before.length) : trail.Inside k.indexed := by
  have hend := k.firstEnd_indexed
  obtain ⟨-, more, hmore, hsorted, hinside⟩ := h
  rw [show Trail.start.accesses = [] from rfl, List.nil_append] at hmore
  subst hmore
  refine ⟨hend ▸ hle, fun a ha => ?_, hsorted⟩
  obtain ⟨hindex, -, htaken⟩ := hinside a ha
  have htaken := Nat.le_trans htaken hle
  have hindex := Nat.le_trans hindex htaken
  exact ⟨k.lt_length hindex, hend ▸ hindex, hend ▸ htaken⟩

theorem uptoEnd_append {before : List Token} {last : Token} (hb : ∀ t ∈ before, t.kind ≠ .eof)
    (hl : last.kind = .eof) (behind : List Token) :
    uptoEnd (before ++ last :: behind) = before ++ [last] := by
  rw [uptoEnd, firstEnd_append hb hl, List.take_append, List.take_of_length_le (Nat.le_succ _),
    Nat.add_sub_cancel_left, List.take_succ_cons, List.take_zero]

theorem eq_append_of_uptoEnd {tokens before : List Token} {last : Token}
    (h : uptoEnd tokens = before ++ [last]) : ∃ behind, tokens = before ++ last :: behind :=
  ⟨tokens.drop (firstEnd tokens + 1), by
    rw [← List.singleton_append, ← List.append_assoc, ← h, uptoEnd, List.take_append_drop]⟩

/-- The fate of a declaration that is read from so many tokens on: it fails, or it is read and has
taken a token, and none behind the first mark of the end. -/
def Indexing.Advances (tokens : List Token) (trail : Trail) : Except Stop Stmt × Trail → Prop
  | (.ok _, next) => trail.taken < next.taken ∧ next.taken ≤ firstEnd tokens
  | (.error (.fault _), next) => trail.taken ≤ next.taken ∧ next.taken ≤ firstEnd tokens
  | (.error _, _) => False

section
variable {tokens : List Token} (h : Ended tokens)
include h

theorem run_inside {fuel : Nat} (hf : enoughFuel tokens ≤ fuel) :
    ∃ trail, Indexing.run fuel tokens = (.ok (parse tokens), trail) ∧ trail.Inside tokens := by
  by_cases hne : tokens = []
  · subst hne
    exact ⟨.start, rfl, Nat.le_refl _, by simp [Trail.start], by simp [Trail.start]⟩
  · obtain ⟨k, hk, hk'⟩ := h.fork hne
    obtain ⟨trail, hrun, hlead, hle⟩ := Indexing.run_eq k (hk'.symm ▸ hf)
    rw [hk, hk'] at hrun
    exact ⟨trail, hrun, hk ▸ hlead.inside hle⟩

theorem declaration_inside {fuel : Nat} (hf : enoughFuel tokens ≤ fuel) (hne : tokens ≠ [])
    (ctx : Context) {trail : Trail} (htrail : trail.taken ≤ firstEnd tokens) :
    Indexing.Advances tokens trail (Indexing.reader.declaration fuel ctx tokens trail) := by
  obtain ⟨k, hk, hk'⟩ := h.fork hne
  have hend : firstEnd tokens = k.before.length := hk ▸ k.firstEnd_indexed
  have hfuel : 16 * (k.rest trail.taken).length + 12 ≤ enoughFuel tokens := by
    have hdrop : k.rest trail.taken = tokens.drop trail.taken := hk' ▸ rfl
    rw [hdrop, List.length_drop, enoughFuel]
    omega
  obtain ⟨next, hlead, hle, ⟨d, hd⟩ | ⟨s, hd, hlt⟩⟩ :=
    Indexing.declaration_advances k hf ctx hfuel (hend ▸ htrail)
  · rw [hk] at hd
    rw [hd]
    exact ⟨hlead.taken_le, hend ▸ hle⟩
  · rw [hk] at hd
    rw [hd]
    exact ⟨hlt, hend ▸ hle⟩

theorem parse_upto {tokens' : List Token} (hupto : uptoEnd tokens' = uptoEnd tokens) :
    parse tokens' = parse tokens := by
  by_cases hne : tokens = []
  · subst hne
    have hnil : tokens' = [] := by simpa [uptoEnd] using hupto
    rw [hnil]
  · obtain ⟨k, rfl, -⟩ := h.fork hne
    rw [Fork.indexed, uptoEnd_append k.unended k.ends] at hupto
    obtain ⟨behind', rfl⟩ := eq_append_of_uptoEnd hupto
    exact parse_fork ⟨k.before, k.last, behind', k.behind, k.unended, k.ends⟩

/-- A token list that is empty or ends with a mark of the end is read to the end of the reading,
whatever is wrong with it: by index, every access is to a token of the list, none of them behind the
first mark of the end, and the number of tokens taken never falls. A declaration that is read has
taken a token, wherever it stands. The tokens behind the first mark of the end do not matter. -/
theorem parse_stays_inside :
    (∀ fuel, enoughFuel tokens ≤ fuel →
      (∃ trail, Indexing.run fuel tokens = (.ok (parse tokens), trail) ∧ trail.Inside tokens) ∧
      ∀ ctx trail, tokens ≠ [] → trail.taken ≤ firstEnd tokens →
        Indexing.Advances tokens trail (Indexing.reader.declaration fuel ctx tokens trail)) ∧
    (∀ fuel ctx c s next, declaration fuel ctx c = .done s next →
      ∃ t used, c.rest = (t :: used) ++ next.rest ∧ ∀ t' ∈ t :: used, t'.kind ≠ .eof) ∧
    ∀ tokens', uptoEnd tokens' = uptoEnd tokens → parse tokens' = parse tokens :=
  ⟨fun _ hf => ⟨run_inside h hf, fun ctx _ hne htrail => declaration_inside h hf hne ctx htrail⟩,
    fun _ _ _ _ _ => declaration_takes, fun _ => parse_upto h⟩

end

/-- With a mark of the end in the middle. -/
theorem parse_stays_inside_marks :
    let line (kind : Kind) : Token := ⟨kind, "a", .nil, 1⟩
    let tokens := [line .identifier, line .semicolon, line .eof, line .rightParen, line .eof]
    (∃ trail, Indexing.run (enoughFuel tokens) tokens = (.ok (parse tokens), trail) ∧
      trail.Inside tokens) ∧
      parse [line .identifier, line .semicolon, line .eof] = parse tokens := by
  intro line tokens
  have hended : Ended tokens := by
    rintro t ⟨⟩
    rfl
  have h := parse_stays_inside hended
  exact ⟨(h.1 _ (Nat.le_refl _)).1, h.2.2 _ rfl⟩

end Lox.Grammar
