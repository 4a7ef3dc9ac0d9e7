import Lox.Proofs.Grammar.Reading

/-! What the small rules do in front of given symbols, and rules that go on as expected as long as
they have fuel. -/
namespace Lox.Grammar

/-- The cursor with one more token in front. -/
def Cursor.push (t : Token) (c : Cursor) : Cursor := ⟨t :: c.rest, c.reports⟩

/-- The tokens from `c` to `next` have the symbols `w`. -/
def Cursor.Offers : List Symbol → Cursor → Cursor → Prop
  | [], c, next => c = next
  | a :: w, c, next => ∃ t mid, t.symbol = a ∧ c = mid.push t ∧ Offers w mid next

namespace Cursor.Offers

variable {c next : Cursor} {u v : List Symbol}

theorem append : Cursor.Offers (u ++ v) c next ↔
    ∃ mid, Cursor.Offers u c mid ∧ Cursor.Offers v mid next := by
  induction u generalizing c with
  | nil => simp [Cursor.Offers]
  | cons a u ih =>
    simp only [List.cons_append, Cursor.Offers, ih]
    constructor
    · rintro ⟨t, mid, ha, hc, last, hu, hv⟩
      exact ⟨last, ⟨t, mid, ha, hc, hu⟩, hv⟩
    · rintro ⟨last, ⟨t, mid, ha, hc, hu⟩, hv⟩
      exact ⟨t, mid, ha, hc, last, hu, hv⟩

theorem of_tokens (tokens : List Token) (next : Cursor) :
    Cursor.Offers (tokens.map Token.symbol) ⟨tokens ++ next.rest, next.reports⟩ next := by
  induction tokens with
  | nil => rfl
  | cons t tokens ih => exact ⟨t, _, rfl, rfl, ih⟩

/-- One mark and what follows it. -/
theorem mark {kind : Kind} {w : List Symbol} :
    Cursor.Offers (.mark kind :: w) c next →
      ∃ t mid, t.kind = kind ∧ c = mid.push t ∧ Cursor.Offers w mid next := by
  rintro ⟨t, mid, ht, hc, hw⟩
  exact ⟨t, mid, congrArg Symbol.kind ht, hc, hw⟩

theorem identifier {name : String} {w : List Symbol} :
    Cursor.Offers (.identifier name :: w) c next →
      ∃ t mid, t.kind = .identifier ∧ t.lexeme = name ∧ c = mid.push t ∧
        Cursor.Offers w mid next := by
  rintro ⟨t, mid, ht, hc, hw⟩
  have hk : t.kind = .identifier := congrArg Symbol.kind ht
  have hn := congrArg Symbol.name ht
  exact ⟨t, mid, hk, by simpa [Token.symbol, hk, Symbol.identifier] using hn, hc, hw⟩

theorem literal {value : Literal} {w : List Symbol} :
    Cursor.Offers (.literal value :: w) c next →
      ∃ t mid, literalKind? t.kind = some () ∧ t.literal = value ∧ c = mid.push t ∧
        Cursor.Offers w mid next := by
  rintro ⟨t, mid, ht, hc, hw⟩
  have hk : t.kind = value.kind := congrArg Symbol.kind ht
  have hl : literalKind? t.kind = some () := by
    rw [hk]
    cases value with
    | bool b => cases b <;> rfl
    | _ => rfl
  have hn := congrArg Symbol.constant ht
  exact ⟨t, mid, hl, by simpa [Token.symbol, Token.isLiteral, hl, Symbol.literal] using hn, hc, hw⟩

end Cursor.Offers

section
variable {t : Token} {c : Cursor} {kind : Kind}

theorem accept?_push (hk : t.kind = kind) (he : kind ≠ .eof) :
    accept? kind (c.push t) = .done (some t) c := by
  simp [accept?, Cursor.push, hk, he]

theorem accept?_push_ne (hk : t.kind ≠ kind) :
    accept? kind (c.push t) = .done none (c.push t) := by
  simp [accept?, Cursor.push, hk]

theorem acceptSome?_push {α : Type} {f : Kind → Option α} {a : α} (hf : f t.kind = some a) :
    acceptSome? f (c.push t) = .done (some (a, t)) c := by
  simp [acceptSome?, Cursor.push, hf]

theorem acceptSome?_push_none {α : Type} {f : Kind → Option α} (hf : f t.kind = none) :
    acceptSome? f (c.push t) = .done none (c.push t) := by
  simp [acceptSome?, Cursor.push, hf]

theorem expect_push {what : Expected} (hk : t.kind = kind) (he : kind ≠ .eof) :
    expect kind what (c.push t) = .done t c := by
  simp [expect, Rule.bind_apply, accept?_push hk he]

theorem sees_push (hk : t.kind = kind) (he : kind ≠ .eof) :
    sees kind (c.push t) = .done true (c.push t) := by
  simp [sees, Cursor.sees, Cursor.push, hk, he]

theorem sees_push_ne (hk : t.kind ≠ kind) :
    sees kind (c.push t) = .done false (c.push t) := by
  simp [sees, Cursor.sees, Cursor.push, hk]

theorem atEnd_push (hk : t.kind ≠ .eof) : atEnd (c.push t) = .done false (c.push t) := by
  simp [atEnd, Cursor.atEnd, Cursor.push, hk]

theorem accept?_of_not_sees (h : c.sees kind = false) : accept? kind c = .done none c := by
  unfold Cursor.sees at h
  unfold accept?
  split
  next => rfl
  next t rest hr =>
    rw [hr] at h
    simp only [h, Bool.false_eq_true, if_false]

end

/-- If the fuel suffices, the rule comes from `c` to `next` with a value as wanted. -/
def Rule.Yields {α : Type} (r : Rule α) (c : Cursor) (wanted : α → Prop) (next : Cursor) : Prop :=
  r c = .outOfFuel ∨ ∃ a, wanted a ∧ r c = .done a next

namespace Rule.Yields

variable {α β : Type} {r : Rule α} {f : α → Rule β} {c mid next : Cursor} {wanted : α → Prop}
  {wanted' : β → Prop}

theorem pure {a : α} (h : wanted a) : (Pure.pure a : Rule α).Yields c wanted c := .inr ⟨a, h, rfl⟩

theorem bind (h : r.Yields c wanted mid) (hf : ∀ a, wanted a → (f a).Yields mid wanted' next) :
    (r >>= f).Yields c wanted' next := by
  unfold Yields
  rw [Rule.bind_apply]
  rcases h with h | ⟨a, ha, h⟩
  · rw [h]
    exact .inl rfl
  · rw [h]
    exact hf a ha

/-- A step whose outcome is known. -/
theorem step {a : α} (h : r c = .done a mid) (hf : (f a).Yields mid wanted' next) :
    (r >>= f).Yields c wanted' next := by
  unfold Yields
  rw [Rule.bind_apply, h]
  exact hf

end Rule.Yields
end Lox.Grammar
