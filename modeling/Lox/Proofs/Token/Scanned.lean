import Lox.Proofs.Grammar.Phrase
import Lox.Token.Scan

/-! What every scanned token is like. -/
namespace Lox

theorem Kind.ofWord_eq {word : String} {kind : Kind} (h : Kind.ofWord word = kind) :
    kind ≠ .number ∧ kind ≠ .string ∧ (kind = .identifier → word ≠ "this") := by
  unfold Kind.ofWord at h
  cases hl : Kind.keywords.lookup word with
  | none =>
    rw [hl] at h
    subst h
    refine ⟨by decide, by decide, ?_⟩
    rintro - rfl
    cases hl
  | some kind' =>
    rw [hl] at h
    subst h
    have hkinds : ∀ entry ∈ Kind.keywords,
        entry.2 ≠ .number ∧ entry.2 ≠ .string ∧ entry.2 ≠ .identifier := by decide
    obtain ⟨before, behind, he, -⟩ := List.lookup_eq_some_iff.1 hl
    obtain ⟨hn, hs, hi⟩ := hkinds (word, kind') (by simp [he])
    exact ⟨hn, hs, fun h => absurd h hi⟩

namespace Segment

/-- A literal token carries a constant of its own kind, and no name is `this`. -/
structure Proper (s : Segment) : Prop where
  sincere {kind : Kind} {literal : Literal} : s.content = .token kind literal →
    (Grammar.literalKind? kind).isSome → literal.kind = kind
  name {literal : Literal} : s.content = .token .identifier literal → String.ofList s.text ≠ "this"

namespace Proper

theorem of_not_token {s : Segment} (h : ∀ kind literal, s.content ≠ .token kind literal) :
    s.Proper where
  sincere hc := absurd hc (h _ _)
  name hc := absurd hc (h _ _)

theorem gap {text : List Char} : Proper ⟨text, .gap⟩ := of_not_token (by simp)

theorem fault {text : List Char} {f : LexicalFault} : Proper ⟨text, .fault f⟩ :=
  of_not_token (by simp)

/-- A token that is not a name and whose literal, if it may have one, is of its own kind. -/
theorem sincereToken {text : List Char} {kind : Kind} {literal : Literal}
    (hl : literal.kind = kind) (hi : kind ≠ .identifier) : Proper ⟨text, .token kind literal⟩ where
  sincere hc _ := by cases hc; exact hl
  name hc := by cases hc; exact absurd rfl hi

theorem mark {text : List Char} {kind : Kind} {literal : Literal}
    (hl : (Grammar.literalKind? kind).isNone) (hi : kind ≠ .identifier) :
    Proper ⟨text, .token kind literal⟩ := by
  constructor
  · rintro _ _ ⟨⟩ h
    simp_all
  · rintro _ ⟨⟩
    exact absurd rfl hi

end Proper

theorem single?_mark {c : Char} {kind : Kind} (h : single? c = some kind) :
    (Grammar.literalKind? kind).isNone ∧ kind ≠ .identifier := by
  unfold single? at h
  split at h <;> cases h <;> decide

theorem paired?_mark {c : Char} {alone withEqual : Kind} (h : paired? c = some (alone, withEqual)) :
    ((Grammar.literalKind? alone).isNone ∧ alone ≠ .identifier) ∧
      (Grammar.literalKind? withEqual).isNone ∧ withEqual ≠ .identifier := by
  unfold paired? at h
  split at h <;> cases h <;> decide

theorem string_proper (rest : List Char) : (string rest).Proper := by
  unfold string
  split
  · exact .fault
  · exact .sincereToken rfl (by simp)

theorem number_proper (c : Char) (rest : List Char) : (number c rest).Proper :=
  .sincereToken rfl (by simp)

theorem word_proper (c : Char) (rest : List Char) : (word c rest).Proper := by
  constructor
  · intro kind literal h hl
    obtain ⟨rfl, rfl⟩ : _ = kind ∧ _ = literal := by simpa [word] using h
    obtain ⟨hn, hs, -⟩ := Kind.ofWord_eq (rfl : Kind.ofWord _ = _)
    generalize Kind.ofWord _ = kind at *
    cases kind <;> first | rfl | exact absurd rfl hn | exact absurd rfl hs | cases hl
  · intro literal h
    have hk : Kind.ofWord (String.ofList (word c rest).text) = .identifier := by
      injection h
    exact (Kind.ofWord_eq hk).2.2 rfl

theorem slash_proper (rest : List Char) : (slash rest).Proper := by
  unfold slash
  split
  · exact .gap
  · exact .mark rfl (by decide)

theorem first_proper (c : Char) (rest : List Char) : (first c rest).Proper := by
  unfold first
  split
  next hk => exact .mark (single?_mark hk).1 (single?_mark hk).2
  next =>
    split
    next hk =>
      obtain ⟨⟨hl, hi⟩, hl', hi'⟩ := paired?_mark hk
      split
      · exact .mark hl' hi'
      · exact .mark hl hi
    next =>
      split
      · exact .gap
      split
      · exact slash_proper rest
      split
      · exact string_proper rest
      split
      · exact number_proper c rest
      split
      · exact word_proper c rest
      · exact .fault

theorem all_proper (text : List Char) : ∀ s ∈ Segment.all text, s.Proper := by
  fun_induction Segment.all text with
  | case1 => simp
  | case2 c rest s ih => exact List.forall_mem_cons.2 ⟨first_proper c rest, ih⟩

end Segment

/-- A scanned token is sincere, and no name in it is `this`. -/
theorem Item.ofSegments_token {segments : List Segment} (hs : ∀ s ∈ segments, s.Proper)
    {line : Nat} {t : Token} (ht : .token t ∈ Item.ofSegments line segments) :
    t.Sincere ∧ (t.kind = .identifier → t.lexeme ≠ "this") := by
  induction segments generalizing line with
  | nil =>
    obtain rfl : t = ⟨.eof, "", .nil, line⟩ := by simpa [Item.ofSegments] using ht
    constructor
    · intro h
      cases h
    · intro h
      cases h
  | cons s rest ih =>
    obtain ⟨hp, hrest⟩ := List.forall_mem_cons.1 hs
    rw [Item.ofSegments] at ht
    split at ht
    next => exact ih hrest ht
    next kind literal hc =>
      rcases List.mem_cons.1 ht with h | h
      · cases h
        refine ⟨hp.sincere hc, fun hk => ?_⟩
        cases hk
        exact hp.name hc
      · exact ih hrest h
    next =>
      rcases List.mem_cons.1 ht with h | h
      · cases h
      · exact ih hrest h

theorem Token.scan_sincere {source : String} {t : Token} (ht : t ∈ Token.scan source) :
    t.Sincere ∧ (t.kind = .identifier → t.lexeme ≠ "this") := by
  obtain ⟨item, hi, he⟩ := List.mem_filterMap.1 ht
  cases item with
  | token t' =>
    cases he
    exact Item.ofSegments_token (Segment.all_proper source.toList) hi
  | fault => cases he

/-- What scanning reports is a lexical fault. -/
theorem Diagnostic.scan_lexical {source : String} {d : Diagnostic} (hd : d ∈ Diagnostic.scan source) :
    ∃ f, d.fault = .lexical f := by
  obtain ⟨item, hi, he⟩ := List.mem_filterMap.1 hd
  cases item with
  | token => cases he
  | fault d' =>
    cases he
    have hitems (line : Nat) (segments : List Segment)
        (h : .fault d ∈ Item.ofSegments line segments) : ∃ f, d.fault = .lexical f := by
      induction segments generalizing line with
      | nil => simp [Item.ofSegments] at h
      | cons s rest ih =>
        rw [Item.ofSegments] at h
        split at h
        next => exact ih _ h
        next =>
          rcases List.mem_cons.1 h with h | h
          · cases h
          · exact ih _ h
        next f _ =>
          rcases List.mem_cons.1 h with h | h
          · cases h
            exact ⟨f, rfl⟩
          · exact ih _ h
    exact hitems _ _ hi

end Lox
