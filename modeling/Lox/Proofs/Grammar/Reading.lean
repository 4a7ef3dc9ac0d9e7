import Lox.Proofs.Grammar.Phrase

/-! What the small rules do with the tokens: they take them in order, one by one, and never one
behind the mark of the end. -/
namespace Lox.Grammar

/-- Texts, as symbols, that something may be spelled by. -/
abbrev Spelling := List Symbol → Prop

def Spelling.then (s s' : Spelling) : Spelling := fun w => ∃ u v, s u ∧ s' v ∧ u ++ v = w

/-- From `c` to `next` at least `n` tokens are taken. They spell what was read, which is good
unless something has been reported. -/
def Cursor.Reads (n : Nat) (c next : Cursor) (spelled : Spelling) (good : Prop) : Prop :=
  ∃ used, n ≤ used.length ∧ c.rest = used ++ next.rest ∧ (∀ t ∈ used, t.kind ≠ .eof) ∧
    ((∀ t ∈ used, t.Sincere) → spelled (used.map Token.symbol)) ∧
    (next.reports = [] → c.reports = [] ∧ good)

namespace Cursor.Reads

variable {n n' : Nat} {c mid next : Cursor} {spelled spelled' : Spelling} {good good' : Prop}

theorem nothing (c : Cursor) : c.Reads 0 c (· = []) True :=
  ⟨[], Nat.le_refl _, rfl, by simp, fun _ => rfl, fun h => ⟨h, trivial⟩⟩

theorem trans (h : c.Reads n mid spelled good) (h' : mid.Reads n' next spelled' good') :
    c.Reads (n + n') next (spelled.then spelled') (good ∧ good') := by
  rcases h with ⟨u, hn, hr, hi, hs, hg⟩
  rcases h' with ⟨v, hn', hr', hi', hs', hg'⟩
  refine ⟨u ++ v, ?_, ?_, List.forall_mem_append.2 ⟨hi, hi'⟩, fun hall => ?_, fun hq => ?_⟩
  · rw [List.length_append]
    exact Nat.add_le_add hn hn'
  · rw [hr, hr', List.append_assoc]
  · obtain ⟨hu, hv⟩ := List.forall_mem_append.1 hall
    exact ⟨_, _, hs hu, hs' hv, (List.map_append).symm⟩
  · obtain ⟨hq', hg'⟩ := hg' hq
    exact ⟨(hg hq').1, (hg hq').2, hg'⟩

theorem weaken (h : c.Reads n next spelled good) (hn : n' ≤ n)
    (hs : ∀ w, spelled w → spelled' w) (hg : good → good') : c.Reads n' next spelled' good' := by
  rcases h with ⟨u, hu, hr, hi, hs', hg'⟩
  exact ⟨u, Nat.le_trans hn hu, hr, hi, fun hall => hs _ (hs' hall),
    fun hq => ⟨(hg' hq).1, hg (hg' hq).2⟩⟩

theorem length_le (h : c.Reads n next spelled good) : next.rest.length + n ≤ c.rest.length := by
  rcases h with ⟨u, hu, hr, -⟩
  rw [hr, List.length_append]
  omega

end Cursor.Reads

/-- One token of the given kind is taken. -/
def Cursor.Takes (c : Cursor) (kind : Kind) (t : Token) (next : Cursor) : Prop :=
  t.kind = kind ∧ kind ≠ .eof ∧ c.rest = t :: next.rest ∧ next.reports = c.reports

section
variable {c next : Cursor} {kind : Kind}

theorem takes_of_cons {t : Token} {rest : List Token} (hr : c.rest = t :: rest)
    (ht : t.kind ≠ .eof) : c.Takes t.kind t { c with rest } :=
  ⟨rfl, ht, hr, rfl⟩

theorem accept?_some {t : Token} (h : accept? kind c = .done (some t) next) :
    c.Takes kind t next := by
  unfold accept? at h
  split at h
  · cases h
  next t' rest hr =>
    split at h
    next hk =>
      simp only [bne_iff_ne, ne_eq, Bool.and_eq_true, beq_iff_eq] at hk
      cases h
      exact hk.2 ▸ takes_of_cons hr hk.1
    next => cases h

theorem accept?_none (h : accept? kind c = .done none next) :
    next = c ∧ c.sees kind = false := by
  unfold accept? at h
  unfold Cursor.sees
  split at h
  next => cases h; simp
  next t rest hr =>
    split at h
    next => cases h
    next hk => cases h; simpa [hr] using hk

theorem acceptSome?_some {α : Type} {f : Kind → Option α} {a : α} {t : Token}
    (hf : f .eof = none) (h : acceptSome? f c = .done (some (a, t)) next) :
    f t.kind = some a ∧ c.Takes t.kind t next := by
  unfold acceptSome? at h
  split at h
  · cases h
  next t' rest hr =>
    split at h
    next b hb =>
      cases h
      refine ⟨hb, takes_of_cons hr fun he => ?_⟩
      rw [he, hf] at hb
      cases hb
    next => cases h

theorem acceptSome?_none {α : Type} {f : Kind → Option α}
    (h : acceptSome? f c = .done none next) : next = c := by
  unfold acceptSome? at h
  split at h
  · cases h; rfl
  · split at h
    · cases h
    · cases h; rfl

theorem expect_done {what : Expected} {t : Token} (h : expect kind what c = .done t next) :
    c.Takes kind t next := by
  unfold expect at h
  obtain ⟨t?, mid, ha, h⟩ := Rule.bind_eq_done_iff.1 h
  cases t? with
  | none => cases h
  | some t' => cases h; exact accept?_some ha

/-- A choice in front of the rest of a rule is a rule of its own. -/
theorem choice_bind {α β : Type} {p : Prop} [Decidable p] (r s : Rule α) (f : α → Rule β) :
    (if p then r >>= f else s >>= f) = (if p then r else s) >>= f := by
  split <;> rfl

theorem optional_bind {β : Type} {p : Prop} [Decidable p] (r : Rule Unit)
    (f : Unit → Rule β) : (if p then r >>= f else f ()) = (if p then r else pure ()) >>= f := by
  split <;> rfl

theorem sees_done {seen : Bool} (h : sees kind c = .done seen next) :
    next = c ∧ seen = c.sees kind := by
  cases h
  exact ⟨rfl, rfl⟩

theorem atEnd_done {ended : Bool} (h : atEnd c = .done ended next) :
    next = c ∧ ended = c.atEnd := by
  cases h
  exact ⟨rfl, rfl⟩

/-- What has been reported is never good. -/
theorem reportHere_reads {f : GrammarFault} (h : reportHere f c = .done () next) :
    c.Reads 0 next (· = []) False := by
  cases h
  exact ⟨[], Nat.le_refl _, rfl, by simp, fun _ => rfl, fun hq => by simp at hq⟩

end

/-! Symbols of single tokens. -/

theorem symbol_of_identifier {t : Token} (h : t.kind = .identifier) :
    t.symbol = .identifier t.lexeme := by
  simp [Token.symbol, Token.isLiteral, Symbol.identifier, literalKind?, h]

theorem symbol_of_literal {t : Token} (h : t.isLiteral) (hs : t.Sincere) :
    t.symbol = .literal t.literal := by
  have hk : t.kind ≠ .identifier := by
    intro he
    simp [Token.isLiteral, literalKind?, he] at h
  simp [Token.symbol, Symbol.literal, h, hk, hs h]

/-- Kinds whose tokens say nothing but their kind. -/
def isMark (kind : Kind) : Bool := kind != .identifier && (literalKind? kind).isNone

theorem symbol_of_mark {t : Token} (h : isMark t.kind) : t.symbol = .mark t.kind := by
  simp only [isMark, bne_iff_ne, ne_eq, Bool.and_eq_true, Option.isNone_iff_eq_none] at h
  simp [Token.symbol, Token.isLiteral, Symbol.mark, h]

namespace Cursor.Takes

variable {c next : Cursor} {kind : Kind} {t : Token}

theorem length_eq (h : c.Takes kind t next) : c.rest.length = next.rest.length + 1 := by
  rw [h.2.2.1, List.length_cons]

private theorem reads (h : c.Takes kind t next) {w : Symbol} (hw : t.Sincere → t.symbol = w) :
    c.Reads 1 next (· = [w]) True := by
  rcases h with ⟨hk, he, hr, hq⟩
  exact ⟨[t], Nat.le_refl _, hr, by simpa [hk] using he, fun hs => by simp [hw (hs t (by simp))],
    fun hq' => ⟨hq ▸ hq', trivial⟩⟩

theorem mark (h : c.Takes kind t next) (hm : isMark kind) :
    c.Reads 1 next (· = [.mark kind]) True :=
  h.reads fun _ => by rw [← h.1] at hm ⊢; exact symbol_of_mark hm

theorem identifier (h : c.Takes .identifier t next) :
    c.Reads 1 next (· = [.identifier t.lexeme]) True :=
  h.reads fun _ => symbol_of_identifier h.1

theorem literal (h : c.Takes kind t next) (hl : t.isLiteral) :
    c.Reads 1 next (· = [.literal t.literal]) True :=
  h.reads fun hs => symbol_of_literal hl hs

end Cursor.Takes

/-- The check of a list's length: it reports exactly in front of the item that is too much. -/
theorem lengthCheck_reads {what : Capped} {taken : Nat} {c next : Cursor}
    (h : (if taken = Capped.limit then reportHere (.tooMany what) else pure ()) c =
      .done () next) :
    c.Reads 0 next (· = []) (taken ≠ Capped.limit) := by
  split at h
  · exact (reportHere_reads h).weaken (Nat.le_refl _) (fun _ => id) False.elim
  next hne =>
    cases h
    exact (Cursor.Reads.nothing _).weaken (Nat.le_refl _) (fun _ => id) fun _ => hne

end Lox.Grammar
