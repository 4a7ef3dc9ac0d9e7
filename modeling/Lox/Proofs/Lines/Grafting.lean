import Lox.Proofs.Grammar.Offering
import Lox.Proofs.Lines.Relined

/-! Token lists that agree up to some place, but for their lines. A rule that stops in front of
that place does not know in which of them it reads. -/
namespace Lox.Grammar

/-- Another tail of a token list in the place of the old one, and other lines in front of it. No
`else` begins the new tail: it is the one token that a rule asks for behind its own last token. -/
structure Graft where
  lines : Nat → Nat
  old : List Token
  new : List Token
  new_else : ∀ t ∈ new.head?, t.kind ≠ .kwElse

/-- The cursors have the same tokens in front of the two tails, but for the lines, and the same
reports. -/
inductive Cursor.Beside (g : Graft) : Cursor → Cursor → Prop where
  | tail {reports : List Diagnostic} :
    Beside g ⟨g.old, reports⟩ ⟨g.new, reports.map (Diagnostic.relined g.lines)⟩
  | push {c c' : Cursor} {t : Token} : t.kind ≠ .eof → c.Beside g c' →
    Beside g (c.push t) (c'.push (t.relined g.lines))

theorem Cursor.Beside.of_tokens (g : Graft) {tokens : List Token}
    (h : ∀ t ∈ tokens, t.kind ≠ .eof) (reports : List Diagnostic) :
    Cursor.Beside g ⟨tokens ++ g.old, reports⟩
      ⟨tokens.map (Token.relined g.lines) ++ g.new,
        reports.map (Diagnostic.relined g.lines)⟩ := by
  induction tokens with
  | nil => exact .tail
  | cons t tokens ih =>
    exact .push (h t List.mem_cons_self) (ih fun t' ht => h t' (List.mem_cons_of_mem _ ht))

theorem Cursor.Beside.length_le {g : Graft} {c c' : Cursor} (h : c.Beside g c') :
    g.old.length ≤ c.rest.length := by
  induction h with
  | tail => exact Nat.le_refl _
  | push _ _ ih => exact Nat.le_succ_of_le ih

/-- The second cursor is known from the first. -/
theorem Cursor.Beside.eq_of_rest {g : Graft} {c c' : Cursor} (h : c.Beside g c')
    {tokens : List Token} (hr : c.rest = tokens ++ g.old) :
    c' = ⟨tokens.map (Token.relined g.lines) ++ g.new,
      c.reports.map (Diagnostic.relined g.lines)⟩ := by
  induction h generalizing tokens with
  | tail =>
    obtain rfl : tokens = [] := List.self_eq_append_left.1 hr
    rfl
  | @push c c' t _ hb ih =>
    have hle := hb.length_le
    cases tokens with
    | nil =>
      have hlength : c.rest.length + 1 = g.old.length := congrArg List.length hr
      omega
    | cons t' tokens =>
      obtain ⟨rfl, hrest⟩ := List.cons.inj hr
      rw [ih hrest]
      rfl

/-- A report that is made on both sides. -/
theorem Cursor.Beside.report {g : Graft} {c c' : Cursor} (h : c.Beside g c') (d : Diagnostic) :
    Cursor.Beside g { c with reports := c.reports ++ [d] }
      { c' with reports := c'.reports ++ [d.relined g.lines] } := by
  induction h with
  | @tail reports =>
    have htail : Cursor.Beside g ⟨g.old, reports ++ [d]⟩
        ⟨g.new, (reports ++ [d]).map (Diagnostic.relined g.lines)⟩ := .tail
    rwa [List.map_append] at htail
  | push ht _ ih => exact .push ht ih

/-- If the first rule is done with `look` tokens left in front of the tail, then so is the second,
with the value that `f` makes of the first one's. At least `take` tokens are taken. -/
structure Rule.Carries {α β : Type} (g : Graft) (look take : Nat) (f : α → β) (r : Rule α)
    (r' : Rule β) : Prop where
  takes {c next : Cursor} {a : α} : r c = .done a next →
    next.rest.length + take ≤ c.rest.length
  follows {c c' next : Cursor} {a : α} : c.Beside g c' → r c = .done a next →
    g.old.length + look ≤ next.rest.length → ∃ next', r' c' = .done (f a) next' ∧ next.Beside g next'

namespace Rule.Carries

variable {α α' β β' : Type} {g : Graft} {look take : Nat} {f : α → α'} {f' : β → β'} {r : Rule α}
  {r' : Rule α'}

theorem weaken {look' take' : Nat} (h : r.Carries g look take f r') (hl : look ≤ look')
    (ht : take' ≤ take) : r.Carries g look' take' f r' where
  takes hr := Nat.le_trans (Nat.add_le_add_left ht _) (h.takes hr)
  follows hb hr hn := h.follows hb hr (Nat.le_trans (Nat.add_le_add_left hl _) hn)

/-- What the second rule takes is left in front of the tail by the first. -/
theorem bind {look' take' : Nat} {k : α → Rule β} {k' : α' → Rule β'}
    (h : r.Carries g look take f r') (hk : ∀ a, (k a).Carries g look' take' f' (k' (f a)))
    (hl : look ≤ look' + take') : (r >>= k).Carries g look' (take + take') f' (r' >>= k') where
  takes hrk := by
    obtain ⟨a, mid, hr, hka⟩ := Rule.bind_eq_done_iff.1 hrk
    have hfirst := h.takes hr
    have hsecond := (hk a).takes hka
    omega
  follows hb hrk hn := by
    obtain ⟨a, mid, hr, hka⟩ := Rule.bind_eq_done_iff.1 hrk
    have hsecond := (hk a).takes hka
    obtain ⟨mid', hr', hb'⟩ := h.follows hb hr (by omega)
    obtain ⟨last', hk', hb''⟩ := (hk a).follows hb' hka hn
    exact ⟨last', Rule.bind_eq_done_iff.2 ⟨_, mid', hr', hk'⟩, hb''⟩

/-- Neither rule needs to be known to stop in front of the tail. -/
theorem andThen {k : α → Rule β} {k' : α' → Rule β'} (h : r.Carries g 1 0 f r')
    (hk : ∀ a, (k a).Carries g 1 0 f' (k' (f a))) : (r >>= k).Carries g 1 0 f' (r' >>= k') :=
  h.bind hk (Nat.le_refl _)

/-- A rule that takes a token closes what is in front of it. -/
theorem closedBy {k : α → Rule β} {k' : α' → Rule β'} (h : r.Carries g 1 0 f r')
    (hk : ∀ a, (k a).Carries g 0 1 f' (k' (f a))) : (r >>= k).Carries g 0 1 f' (r' >>= k') :=
  h.bind hk (Nat.le_refl _)

/-- Behind a closed rule something may follow that is not. -/
theorem closes {k : α → Rule β} {k' : α' → Rule β'} (h : r.Carries g 0 1 f r')
    (hk : ∀ a, (k a).Carries g 0 0 f' (k' (f a))) : (r >>= k).Carries g 0 1 f' (r' >>= k') :=
  h.bind hk (Nat.zero_le _)

theorem opened (h : r.Carries g 0 1 f r') : r.Carries g 1 0 f r' :=
  h.weaken (Nat.zero_le _) (Nat.zero_le _)

theorem pure {look : Nat} {a : α} {b : α'} (h : f a = b) :
    (Pure.pure a : Rule α).Carries g look 0 f (Pure.pure b) where
  takes hr := by
    cases hr
    exact Nat.le_refl _
  follows hb hr _ := by
    cases hr
    exact ⟨_, congrArg (Outcome.done · _) h.symm, hb⟩

theorem fault (line : Nat) (e : GrammarFault) : (Grammar.fault line e).Carries g look take f r' where
  takes hr := by cases hr
  follows _ hr := by cases hr

theorem faultHere (e : GrammarFault) : (Grammar.faultHere e).Carries g look take f r' where
  takes hr := by cases hr
  follows _ hr := by cases hr

theorem fuelSpent : (Grammar.fuelSpent : Rule α).Carries g look take f r' where
  takes hr := by cases hr
  follows _ hr := by cases hr

theorem ite {p : Prop} [Decidable p] {s : Rule α} {s' : Rule α'} (h : r.Carries g look take f r')
    (h' : s.Carries g look take f s') :
    (if p then r else s).Carries g look take f (if p then r' else s') := by
  split
  · exact h
  · exact h'

/-- A report that is made or not. It is about the next token, so it is not made at the tail. -/
theorem optional {p : Prop} [Decidable p] (e : GrammarFault) {k : Unit → Rule α}
    {k' : Unit → Rule α'} (h : (k ()).Carries g 1 take f (k' ())) :
    (if p then Grammar.reportHere e >>= k else k ()).Carries g 1 take f
      (if p then Grammar.reportHere e >>= k' else k' ()) := by
  split
  case isFalse => exact h
  case isTrue =>
    have htakes {c next : Cursor} {a : α} (hr : (Grammar.reportHere e >>= k) c = .done a next) :
        next.rest.length + take ≤ c.rest.length :=
      h.takes (c := { c with reports := c.reports ++ [⟨c.line, .grammar e⟩] }) hr
    refine { takes := htakes, follows := ?_ }
    intro c c' next a hb hr hn
    have htakes := htakes hr
    cases hb with
    | tail =>
      simp only at htakes
      omega
    | @push c c' t ht hb =>
      exact h.follows ((Cursor.Beside.push ht hb).report ⟨t.line, .grammar e⟩) hr hn

end Rule.Carries

/-! Rules that look at one token. They see its kind, which is the same on both sides, unless it
is the first token of the tail. -/

namespace Rule.Carries

variable {g : Graft} {kind : Kind} {α : Type}

/-- A rule that may look at the tail needs to be checked in front of it only. -/
theorem of_push {β : Type} {f : α → β} {r : Rule α} {r' : Rule β}
    (ht : ∀ {c next a}, r c = .done a next → next.rest.length ≤ c.rest.length)
    (hp : ∀ {t a} {c c' next : Cursor}, t.kind ≠ .eof → c.Beside g c' →
      r (c.push t) = .done a next → ∃ next', r' (c'.push (t.relined g.lines)) = .done (f a) next' ∧ next.Beside g next') :
    r.Carries g 1 0 f r' where
  takes := ht
  follows hb hr hn := by
    cases hb with
    | tail =>
      have hle : _ ≤ g.old.length := ht hr
      omega
    | push ht hb => exact hp ht hb hr

theorem sees (kind : Kind) : (Grammar.sees kind).Carries g 1 0 id (Grammar.sees kind) :=
  of_push (fun hr => by cases hr; exact Nat.le_refl _) fun ht hb hr => by
    cases hr
    exact ⟨_, rfl, .push ht hb⟩

theorem atEnd : Grammar.atEnd.Carries g 1 0 id Grammar.atEnd :=
  of_push (fun hr => by cases hr; exact Nat.le_refl _) fun ht hb hr => by
    cases hr
    exact ⟨_, rfl, .push ht hb⟩

theorem accept?_takes {c next : Cursor} {t? : Option Token}
    (h : Grammar.accept? kind c = .done t? next) :
    next.rest.length ≤ c.rest.length := by
  cases t? with
  | none =>
    obtain ⟨rfl, -⟩ := accept?_none h
    exact Nat.le_refl _
  | some t =>
    have hlength := (accept?_some h).length_eq
    omega

theorem accept?_beside {c c' next : Cursor} {t : Token} {t? : Option Token}
    (ht : t.kind ≠ .eof) (hb : c.Beside g c')
    (h : Grammar.accept? kind (c.push t) = .done t? next) :
    ∃ next', Grammar.accept? kind (c'.push (t.relined g.lines)) =
      .done (t?.map (Token.relined g.lines)) next' ∧ next.Beside g next' := by
  have hpush (d : Cursor) (t : Token) : Grammar.accept? kind (d.push t) =
      if t.kind != .eof && t.kind == kind then .done (some t) d else .done none (d.push t) := rfl
  have hkind : (t.relined g.lines).kind = t.kind := rfl
  rw [hpush] at h ⊢
  rw [hkind]
  split at h
  next hk =>
    cases h
    exact ⟨c', if_pos hk, hb⟩
  next hk =>
    cases h
    exact ⟨_, if_neg hk, .push ht hb⟩

theorem accept? (kind : Kind) :
    (Grammar.accept? kind).Carries g 1 0 (Option.map (Token.relined g.lines))
      (Grammar.accept? kind) :=
  of_push accept?_takes accept?_beside

/-- The only question that is asked at the tail. An `else` that begins the old tail would be
taken. -/
theorem acceptElse : (Grammar.accept? .kwElse).Carries g 0 0 (Option.map (Token.relined g.lines))
    (Grammar.accept? .kwElse) where
  takes hr := accept?_takes hr
  follows {c c' next else?} hb hr hn := by
    cases hb with
    | push ht hb => exact accept?_beside ht hb hr
    | tail =>
      cases else? with
      | some keyword =>
        have hlength : g.old.length = next.rest.length + 1 := (accept?_some hr).length_eq
        omega
      | none =>
        obtain ⟨rfl, -⟩ := accept?_none hr
        refine ⟨_, ?_, .tail⟩
        cases hnew : g.new with
        | nil => rfl
        | cons t new =>
          have ht := g.new_else t (by rw [hnew]; rfl)
          exact accept?_push_ne (c := ⟨new, _⟩) ht

theorem acceptSome? (kinds : Kind → Option α) :
    (Grammar.acceptSome? kinds).Carries g 1 0
      (Option.map fun found => (found.1, found.2.relined g.lines)) (Grammar.acceptSome? kinds) := by
  refine of_push (fun {c next found?} hr => ?_) fun {t found? c c' next} ht hb hr => ?_
  · unfold Grammar.acceptSome? at hr
    split at hr
    next =>
      cases hr
      exact Nat.le_refl _
    next hrest =>
      split at hr
      · cases hr
        simp [hrest]
      · cases hr
        exact Nat.le_refl _
  · cases hk : kinds t.kind with
    | some a =>
      rw [acceptSome?_push hk] at hr
      cases hr
      exact ⟨c', acceptSome?_push hk, hb⟩
    | none =>
      rw [acceptSome?_push_none hk] at hr
      cases hr
      exact ⟨_, acceptSome?_push_none hk, .push ht hb⟩

theorem expect (kind : Kind) (what : Expected) :
    (Grammar.expect kind what).Carries g 0 1 (Token.relined g.lines) (Grammar.expect kind what) where
  takes hr := Nat.le_of_eq (expect_done hr).length_eq.symm
  follows hb hr hn := by
    have hlength := (expect_done hr).length_eq
    cases hb with
    | tail =>
      simp only at hlength
      omega
    | push ht hb =>
      obtain ⟨t?, mid, ha, hm⟩ := Rule.bind_eq_done_iff.1 hr
      obtain ⟨mid', ha', hb'⟩ := accept?_beside ht hb ha
      cases t? with
      | none => cases hm
      | some t =>
        cases hm
        exact ⟨mid', Rule.bind_eq_done_iff.2 ⟨_, _, ha', rfl⟩, hb'⟩

end Rule.Carries
end Lox.Grammar
