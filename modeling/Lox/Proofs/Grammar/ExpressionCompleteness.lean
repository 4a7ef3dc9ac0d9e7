import Lox.Proofs.Grammar.ExpressionSoundness
import Lox.Proofs.Grammar.Offering

/-! Every expression that the grammar has is read back from its symbols. -/
namespace Lox.Grammar

/-- How tightly a token behind an expression would bind it as an operand. -/
def infixLevel? : Kind → Option Nat
  | .equal => some 0
  | .kwOr => some 1
  | .kwAnd => some 2
  | .equalEqual | .bangEqual => some 3
  | .less | .lessEqual | .greater | .greaterEqual => some 4
  | .plus | .minus => some 5
  | .star | .slash => some 6
  | .leftParen | .dot => some Expr.callLevel
  | _ => none

theorem infixLevel?_op (op : BinaryOp) : infixLevel? op.kind = some op.tightness := by
  cases op with
  | strict op => cases op <;> rfl
  | _ => rfl

/-- The next token does not bind at level `n` or tighter. -/
def Cursor.LoosensBelow (n : Nat) (c : Cursor) : Prop :=
  ∀ t rest, c.rest = t :: rest → ∀ m, infixLevel? t.kind = some m → m < n

namespace Cursor.LoosensBelow

variable {c : Cursor} {n m : Nat}

theorem mono (h : c.LoosensBelow n) (hn : n ≤ m) : c.LoosensBelow m :=
  fun t rest hr k hk => Nat.lt_of_lt_of_le (h t rest hr k hk) hn

theorem push {t : Token} (h : ∀ m, infixLevel? t.kind = some m → m < n) :
    (c.push t).LoosensBelow n := by
  intro t' rest hr
  cases hr
  exact h

theorem push_none {t : Token} (h : infixLevel? t.kind = none) : (c.push t).LoosensBelow n :=
  push fun m hm => by rw [h] at hm; cases hm

theorem not_sees (h : c.LoosensBelow n) (kind : Kind) (hk : infixLevel? kind = some m)
    (hm : n ≤ m) : c.sees kind = false := by
  unfold Cursor.sees
  split
  next => rfl
  next t rest hr =>
    have hne : t.kind ≠ kind := by
      rintro rfl
      exact absurd (h t rest hr m hk) (Nat.not_lt.2 hm)
    simp [hne]

end Cursor.LoosensBelow

theorem tier_of_level {k : Nat} (h : k < tiers.length) {op : BinaryOp}
    (ho : op.tightness = k + 1) : tiers[k] op.kind = some op := by
  have hk : k < 6 := h
  cases op with
  | strict op =>
    cases op <;> simp only [BinaryOp.tightness] at ho <;> interval_cases k <;>
      first | rfl | omega
  | _ =>
    simp only [BinaryOp.tightness] at ho
    interval_cases k <;> first | rfl | omega

theorem acceptSome?_tier_none {k : Nat} (h : k < tiers.length) {c : Cursor}
    (hc : c.LoosensBelow (k + 1)) : acceptSome? tiers[k] c = .done none c := by
  unfold acceptSome?
  split
  next => rfl
  next t rest hr =>
    split
    next op ho =>
      obtain ⟨hl, hk⟩ := tier_level h ho
      have := hc t rest hr op.tightness (hk ▸ infixLevel?_op op)
      omega
    next => rfl

theorem tightness_lt (op : BinaryOp) : op.tightness < Expr.prefixLevel := by
  cases op with
  | strict op => cases op <;> decide
  | _ => decide

theorem tightness_pos (op : BinaryOp) : 0 < op.tightness := by
  cases op with
  | strict op => cases op <;> decide
  | _ => decide

theorem callLevel_pos : 0 < Expr.callLevel := by decide

/-- Kinds that an expression starts with. -/
def opensExpression (kind : Kind) : Bool :=
  kind == .identifier || kind == .kwThis || kind == .leftParen || (literalKind? kind).isSome ||
    (unaryTier kind).isSome

/-- Operands of calls start with a token of their own; others may start with an operator. -/
theorem symbols_head (inClass : Bool) : (e : Expr) → e.Grammatical inClass →
    ∃ a w, e.symbols = a :: w ∧ opensExpression a.kind ∧
      (Expr.callLevel ≤ e.tightness → unaryTier a.kind = none)
  | .literal value _, _ => ⟨_, _, rfl, by cases value with | bool b => cases b <;> rfl | _ => rfl,
      fun _ => by cases value with | bool b => cases b <;> rfl | _ => rfl⟩
  | .group .., _ => ⟨_, _, rfl, rfl, fun _ => rfl⟩
  | .unary op _ _, _ => ⟨_, _, rfl, by cases op <;> rfl,
      fun h => absurd h (by simp only [Expr.tightness]; decide)⟩
  | .read .., _ => ⟨_, _, rfl, rfl, fun _ => rfl⟩
  | .this .., _ => ⟨_, _, rfl, rfl, fun _ => rfl⟩
  | .assign .., _ => ⟨_, _, rfl, rfl, fun _ => rfl⟩
  | .binary left op right _, ⟨⟨_, hl⟩, _⟩ => by
    obtain ⟨a, w, ha, ho, -⟩ := symbols_head inClass left hl
    exact ⟨a, _, by rw [Expr.symbols, ha]; rfl, ho,
      fun h => absurd (Nat.lt_of_le_of_lt (m := op.tightness) h (tightness_lt op)) (by decide)⟩
  | .get object _ _, ⟨hcall, ho⟩ => by
    obtain ⟨a, w, ha, ho, hu⟩ := symbols_head inClass object ho
    exact ⟨a, _, by rw [Expr.symbols, ha]; rfl, ho, fun _ => hu hcall⟩
  | .set object _ _ _, ⟨⟨hcall, ho⟩, _⟩ => by
    obtain ⟨a, w, ha, ho, hu⟩ := symbols_head inClass object ho
    exact ⟨a, _, by rw [Expr.symbols, ha]; rfl, ho, fun _ => hu hcall⟩
  | .call callee _ _, ⟨⟨hcall, hc⟩, _⟩ => by
    obtain ⟨a, w, ha, ho, hu⟩ := symbols_head inClass callee hc
    exact ⟨a, _, by rw [Expr.symbols, ha]; rfl, ho, fun _ => hu hcall⟩

theorem opens_of_offers {inClass : Bool} {e : Expr} (hg : e.Grammatical inClass)
    {w : List Symbol} {c next : Cursor} (ho : Cursor.Offers (e.symbols ++ w) c next) :
    ∃ (t : Token) (mid : Cursor), c = mid.push t ∧ opensExpression t.kind := by
  obtain ⟨a, u, he, ha, -⟩ := symbols_head inClass e hg
  rw [he] at ho
  rcases ho with ⟨t, mid, rfl, rfl, -⟩
  exact ⟨t, mid, rfl, ha⟩

/-- No expression starts with one of the marks that end or separate things. -/
theorem opensExpression_ne {kind other : Kind} (h : opensExpression kind)
    (ho : opensExpression other = false) : kind ≠ other := by
  rintro rfl
  rw [h] at ho
  cases ho

/-! Promises about one expression `e`, for every rule that may be asked to read it. Those about
operands are stated with what comes behind the operand, since the rules read on from there. -/

section
variable (ctx : Context) (e : Expr)

def ReadByCalls : Prop :=
  ∀ ⦃fuel c mid last⦄ ⦃wanted : Expr → Prop⦄, Cursor.Offers e.symbols c mid →
    (∀ fuel e', Expr.Resembles e e' → (callsAfter fuel ctx e').Yields mid wanted last) →
      (unary fuel ctx).Yields c wanted last

def ReadByUnary : Prop :=
  ∀ ⦃fuel c next⦄, Cursor.Offers e.symbols c next → next.LoosensBelow Expr.prefixLevel →
    (unary fuel ctx).Yields c (Expr.Resembles e) next

def ReadByOperators (k : Nat) : Prop :=
  ∀ ⦃fuel c next⦄, Cursor.Offers e.symbols c next → next.LoosensBelow (k + 1) →
    (operators fuel ctx (tiers.drop k)).Yields c (Expr.Resembles e) next

def ReadByTier (k : Nat) (hk : k < tiers.length) : Prop :=
  ∀ ⦃fuel c mid last⦄ ⦃wanted : Expr → Prop⦄, Cursor.Offers e.symbols c mid →
    mid.LoosensBelow (k + 2) →
    (∀ fuel e', Expr.Resembles e e' →
      (operatorsAfter fuel ctx tiers[k] (tiers.drop (k + 1)) e').Yields mid wanted last) →
        (operators fuel ctx (tiers.drop k)).Yields c wanted last

def ReadByExpression : Prop :=
  ∀ ⦃fuel c next⦄, Cursor.Offers e.symbols c next → next.LoosensBelow 0 →
    (expression fuel ctx).Yields c (Expr.Resembles e) next

end

section
variable {ctx : Context} {e : Expr}

/-- Nothing that could go on a call is next. -/
theorem callsAfter_stops {fuel : Nat} {c : Cursor} {e' : Expr} (hc : c.LoosensBelow Expr.prefixLevel)
    (h : Expr.Resembles e e') : (callsAfter fuel ctx e').Yields c (Expr.Resembles e) c := by
  cases fuel with
  | zero => exact .inl rfl
  | succ fuel =>
    rw [callsAfter]
    refine .step (accept?_of_not_sees (hc.not_sees .leftParen rfl (by decide))) ?_
    exact .step (accept?_of_not_sees (hc.not_sees .dot rfl (by decide))) (.pure h)

theorem ReadByCalls.toUnary (h : ReadByCalls ctx e) : ReadByUnary ctx e :=
  fun _ _ _ ho hc => h ho fun _ _ he => callsAfter_stops hc he

theorem ReadByUnary.toOperators (h : ReadByUnary ctx e) : ReadByOperators ctx e tiers.length := by
  intro fuel c next ho hc
  cases fuel with
  | zero => exact .inl rfl
  | succ fuel =>
    rw [List.drop_length, operators]
    exact h ho hc

theorem ReadByOperators.toTier {k : Nat} (hk : k < tiers.length)
    (h : ReadByOperators ctx e (k + 1)) : ReadByTier ctx e k hk := by
  intro fuel c mid last wanted ho hm hf
  cases fuel with
  | zero => exact .inl rfl
  | succ fuel =>
    rw [tiers_drop hk, operators]
    exact (h ho hm).bind fun e' he => hf fuel e' he

theorem ReadByTier.toOperators {k : Nat} {hk : k < tiers.length} (h : ReadByTier ctx e k hk) :
    ReadByOperators ctx e k := by
  intro fuel c next ho hc
  apply h ho (hc.mono (by omega))
  intro fuel e' he
  cases fuel with
  | zero => exact .inl rfl
  | succ fuel =>
    rw [operatorsAfter]
    exact .step (acceptSome?_tier_none hk hc) (.pure he)

/-- Looser tiers pass an expression on. -/
theorem ReadByOperators.looser {k k' : Nat} (h : ReadByOperators ctx e k')
    (hk' : k' ≤ tiers.length) (hk : k ≤ k') : ReadByOperators ctx e k := by
  induction k' with
  | zero => exact Nat.le_zero.1 hk ▸ h
  | succ k' ih =>
    rcases Nat.lt_or_eq_of_le hk with hlt | rfl
    · exact ih (ReadByTier.toOperators (h.toTier hk')) (by omega) (by omega)
    · exact h

theorem ReadByOperators.toExpression (h : ReadByOperators ctx e 0) : ReadByExpression ctx e := by
  intro fuel c next ho hc
  cases fuel with
  | zero => exact .inl rfl
  | succ fuel =>
    rw [expression]
    apply (h ho (hc.mono (by omega))).bind
    intro e' he
    exact .step (accept?_of_not_sees (hc.not_sees .equal rfl (by decide))) (.pure he)

end

/-- Every rule that may be asked to read `e` reads it. -/
structure ReadsBack (ctx : Context) (e : Expr) : Prop where
  calls : Expr.callLevel ≤ e.tightness → ReadByCalls ctx e
  unary : Expr.prefixLevel ≤ e.tightness → ReadByUnary ctx e
  operators {k : Nat} : k ≤ tiers.length → k < e.tightness → ReadByOperators ctx e k
  tier {k : Nat} (hk : k < tiers.length) : k < e.tightness → ReadByTier ctx e k hk
  expression : ReadByExpression ctx e

namespace ReadsBack

variable {ctx : Context} {e : Expr}

private theorem of_unary (hcalls : Expr.callLevel ≤ e.tightness → ReadByCalls ctx e)
    (h : ReadByUnary ctx e) : ReadsBack ctx e where
  calls := hcalls
  unary _ := h
  operators hk _ := h.toOperators.looser (Nat.le_refl _) hk
  tier hk _ := (h.toOperators.looser (Nat.le_refl _) hk).toTier hk
  expression := (h.toOperators.looser (Nat.le_refl _) (Nat.zero_le _)).toExpression

private theorem of_calls (h : ReadByCalls ctx e) : ReadsBack ctx e :=
  of_unary (fun _ => h) h.toUnary

private theorem of_tier {k : Nat} (hk : k < tiers.length) (he : e.tightness = k + 1)
    (h : ReadByTier ctx e k hk) : ReadsBack ctx e := by
  have hlen : k < 6 := hk
  have hops : ReadByOperators ctx e k := h.toOperators
  refine ⟨fun hc => ?_, fun hu => ?_, fun _ hk' => ?_, fun hk₁ hk' => ?_, ?_⟩
  · simp only [Expr.callLevel] at hc
    omega
  · simp only [Expr.prefixLevel] at hu
    omega
  · exact hops.looser (Nat.le_of_lt hk) (by omega)
  next k' =>
    rcases Nat.lt_or_eq_of_le (show k' ≤ k by omega) with hlt | rfl
    · exact (hops.looser (Nat.le_of_lt hk) hlt).toTier hk₁
    · exact h
  · exact (hops.looser (Nat.le_of_lt hk) (Nat.zero_le _)).toExpression

private theorem of_expression (he : e.tightness = 0) (h : ReadByExpression ctx e) :
    ReadsBack ctx e := by
  refine ⟨fun hc => ?_, fun hu => ?_, fun _ hk => ?_, fun _ hk => ?_, h⟩
  · simp [he, Expr.callLevel] at hc
  · simp [he, Expr.prefixLevel] at hu
  · omega
  · omega

/-- A primary expression is read by one rule, and calls of it may follow. -/
private theorem of_primary (hhead : ∀ {c next : Cursor}, Cursor.Offers e.symbols c next →
      acceptSome? unaryTier c = .done none c)
    (h : ∀ {fuel : Nat} {c next : Cursor}, Cursor.Offers e.symbols c next →
      (primary fuel ctx).Yields c (Expr.Resembles e) next) : ReadsBack ctx e := by
  apply of_calls
  intro fuel c mid last wanted ho hf
  cases fuel with
  | zero => exact .inl rfl
  | succ fuel =>
    rw [Grammar.unary]
    exact .step (hhead ho) ((h ho).bind fun e' he => hf fuel e' he)

theorem literal {value : Literal} {line : Nat} : ReadsBack ctx (.literal value line) := by
  refine of_primary (fun ho => ?_) fun {fuel c next} ho => ?_
  · obtain ⟨t, mid, hl, -, rfl, -⟩ := ho.literal
    refine acceptSome?_push_none ?_
    cases hk : t.kind <;> rw [hk] at hl <;> first | rfl | cases hl
  · obtain ⟨t, _, hl, rfl, rfl, rfl⟩ := ho.literal
    cases fuel with
    | zero => exact .inl rfl
    | succ fuel =>
      rw [primary]
      exact .step (acceptSome?_push hl) (.pure rfl)

theorem read {o : Occurrence} (h : o.depth = .global) {line : Nat} :
    ReadsBack ctx (.read o line) := by
  refine of_primary (fun ho => ?_) fun {fuel c next} ho => ?_
  · obtain ⟨t, mid, hk, -, rfl, -⟩ := ho.identifier
    exact acceptSome?_push_none (by rw [hk]; rfl)
  · obtain ⟨t, _, hk, hn, rfl, rfl⟩ := ho.identifier
    cases fuel with
    | zero => exact .inl rfl
    | succ fuel =>
      rw [primary]
      refine .step (acceptSome?_push_none (by rw [hk]; rfl)) ?_
      refine .step (accept?_push hk (by decide)) (.pure ?_)
      cases o
      cases h
      cases hn
      rfl

theorem this {line : Nat} (hclass : ctx.inClass = true) :
    ReadsBack ctx (.this ⟨"this", .global⟩ line) := by
  refine of_primary (fun ho => ?_) fun {fuel c next} ho => ?_
  · obtain ⟨t, mid, hk, rfl, -⟩ := ho.mark
    exact acceptSome?_push_none (by rw [hk]; rfl)
  · obtain ⟨t, _, hk, rfl, rfl⟩ := ho.mark
    cases fuel with
    | zero => exact .inl rfl
    | succ fuel =>
      rw [primary]
      refine .step (acceptSome?_push_none (by rw [hk]; rfl)) ?_
      refine .step (accept?_push_ne (by rw [hk]; decide)) ?_
      refine .step (accept?_push hk (by decide)) ?_
      simp only [hclass, if_true]
      exact .pure rfl

theorem group {inner : Expr} {line : Nat} (h : ReadsBack ctx inner) :
    ReadsBack ctx (.group inner line) := by
  refine of_primary (fun ho => ?_) fun {fuel c next} ho => ?_
  · obtain ⟨t, mid, hk, rfl, -⟩ := ho.mark
    exact acceptSome?_push_none (by rw [hk]; rfl)
  · obtain ⟨t, _, hk, rfl, hin⟩ := ho.mark
    obtain ⟨_, hi, hend⟩ := Cursor.Offers.append.1 hin
    obtain ⟨t', _, hk', rfl, rfl⟩ := hend.mark
    cases fuel with
    | zero => exact .inl rfl
    | succ fuel =>
      rw [primary]
      refine .step (acceptSome?_push_none (by rw [hk]; rfl)) ?_
      refine .step (accept?_push_ne (by rw [hk]; decide)) ?_
      refine .step (accept?_push_ne (by rw [hk]; decide)) ?_
      refine .step (accept?_push hk (by decide)) ?_
      apply (h.expression hi (.push_none (by rw [hk']; rfl))).bind
      intro e' he
      exact .step (expect_push hk' (by decide)) (.pure (congrArg (Expr.group · 0) he))

theorem unary_op {op : UnaryOp} {right : Expr} {line : Nat}
    (hr : Expr.prefixLevel ≤ right.tightness) (h : ReadsBack ctx right) :
    ReadsBack ctx (.unary op right line) := by
  refine of_unary (fun hc => ?_) fun fuel c next ho hn => ?_
  · simp [Expr.tightness, Expr.callLevel, Expr.prefixLevel] at hc
  obtain ⟨t, _, hk, rfl, hright⟩ := ho.mark
  cases fuel with
  | zero => exact .inl rfl
  | succ fuel =>
    rw [Grammar.unary]
    refine .step (acceptSome?_push (a := op) (by rw [hk]; cases op <;> rfl)) ?_
    exact (h.unary hr hright hn).bind fun e' he => .pure (congrArg (Expr.unary op · 0) he)

theorem binary {left right : Expr} {op : BinaryOp} {line : Nat}
    (hl : op.tightness ≤ left.tightness) (ihl : ReadsBack ctx left)
    (hr : op.tightness < right.tightness) (ihr : ReadsBack ctx right) :
    ReadsBack ctx (.binary left op right line) := by
  obtain ⟨k, hop⟩ := Nat.exists_eq_add_of_le' (tightness_pos op)
  have hk : k < tiers.length := by
    have := tightness_lt op
    simp only [Expr.prefixLevel, hop] at this
    exact (by omega : k < 6)
  refine of_tier hk hop ?_
  intro fuel c mid last wanted ho hm hf
  obtain ⟨_, hleft, hrest⟩ := Cursor.Offers.append.1 ho
  obtain ⟨t, _, ht, rfl, hright⟩ := hrest.mark
  refine ihl.tier hk (by omega) hleft (.push fun m hm => ?_) fun fuel left' hl' => ?_
  · rw [ht, infixLevel?_op, hop] at hm
    cases hm
    omega
  cases fuel with
  | zero => exact .inl rfl
  | succ fuel =>
    rw [operatorsAfter]
    refine .step (acceptSome?_push (a := op) (by rw [ht]; exact tier_of_level hk hop)) ?_
    refine (ihr.operators hk (by omega) hright hm).bind fun right' hr' => hf fuel _ ?_
    simp only [Expr.Resembles, Expr.withoutLines] at hl' hr' ⊢
    rw [hl', hr']

theorem get {object : Expr} {name : String} {line : Nat} (hcall : Expr.callLevel ≤ object.tightness)
    (ih : ReadsBack ctx object) : ReadsBack ctx (.get object name line) := by
  apply of_calls
  intro fuel c mid last wanted ho hf
  obtain ⟨_, hobject, hrest⟩ := Cursor.Offers.append.1 ho
  obtain ⟨dot, _, hd, rfl, hname⟩ := hrest.mark
  obtain ⟨t, _, hk, rfl, rfl, rfl⟩ := hname.identifier
  apply ih.calls hcall hobject
  intro fuel object' ho'
  cases fuel with
  | zero => exact .inl rfl
  | succ fuel =>
    rw [callsAfter]
    refine .step (accept?_push_ne (by rw [hd]; decide)) ?_
    refine .step (accept?_push hd (by decide)) ?_
    refine .step (expect_push hk (by decide)) (hf fuel _ ?_)
    exact congrArg (Expr.get · t.lexeme 0) ho'

/-- An assignment is read as its target, up to the sign. -/
private theorem of_target {e target value : Expr} (he : e.tightness = 0)
    (hsymbols : e.symbols = target.symbols ++ .mark .equal :: value.symbols)
    (iht : ReadsBack ctx target) (hlevel : 0 < target.tightness) (ihv : ReadsBack ctx value)
    (hassign : ∀ {c : Cursor} {sign : Token} {target' value' : Expr},
      target.Resembles target' → value.Resembles value' →
        Rule.Yields (match target' with
          | .read occurrence line => pure (.assign occurrence value' line)
          | .get object name line => pure (.set object name value' line)
          | _ => fault sign.line .invalidTarget) c (Expr.Resembles e) c) :
    ReadsBack ctx e := by
  apply of_expression he
  intro fuel c next ho hn
  rw [hsymbols] at ho
  obtain ⟨_, htarget, hrest⟩ := Cursor.Offers.append.1 ho
  obtain ⟨sign, _, hs, rfl, hvalue⟩ := hrest.mark
  cases fuel with
  | zero => exact .inl rfl
  | succ fuel =>
    rw [Grammar.expression]
    refine (iht.operators (k := 0) (Nat.zero_le _) hlevel htarget (.push fun m hm => ?_)).bind
      fun target' ht' => ?_
    · rw [hs] at hm
      cases hm
      decide
    refine .step (accept?_push hs (by decide)) ?_
    exact (ihv.expression hvalue hn).bind fun value' hv' => hassign ht' hv'

theorem assign {target : Occurrence} {value : Expr} {line : Nat} (ht : target.depth = .global)
    (ih : ReadsBack ctx value) : ReadsBack ctx (.assign target value line) := by
  have hread : ReadsBack ctx (.read target 0) := read ht
  refine of_target rfl rfl hread callLevel_pos ih fun {_ _ target' _} ht hv => ?_
  cases target' with
  | read o _ =>
    cases ht
    exact .pure (congrArg (Expr.assign target · 0) hv)
  | _ => cases ht

theorem set {object value : Expr} {name : String} {line : Nat}
    (hcall : Expr.callLevel ≤ object.tightness) (iho : ReadsBack ctx object)
    (ihv : ReadsBack ctx value) : ReadsBack ctx (.set object name value line) := by
  have hget : ReadsBack ctx (.get object name 0) := get hcall iho
  refine of_target rfl (by simp [Expr.symbols]) hget callLevel_pos ihv fun {_ _ target' _} ht hv => ?_
  cases target' with
  | get object' name' line' =>
    obtain ⟨ho, rfl⟩ : object'.withoutLines = object.withoutLines ∧ name' = name := by
      simpa [Expr.Resembles, Expr.withoutLines] using ht
    refine .pure ?_
    simp only [Expr.Resembles, Expr.withoutLines] at hv ⊢
    rw [ho, hv]
  | _ => cases ht

end ReadsBack

/-- The arguments of a call are read in front of its closing parenthesis. -/
def ArgumentsReadBack (ctx : Context) (es : List Expr) : Prop :=
  ∀ ⦃fuel taken : Nat⦄ ⦃c next : Cursor⦄ ⦃close : Token⦄, close.kind = .rightParen → es ≠ [] →
    taken + es.length ≤ Capped.limit → Cursor.Offers (argumentSymbols es) c (next.push close) →
      (argumentList fuel ctx taken).Yields c
        (fun es' => argumentsWithoutLines es' = argumentsWithoutLines es) (next.push close)

theorem ArgumentsReadBack.cons {ctx : Context} {e : Expr} {es : List Expr} (h : ReadsBack ctx e)
    (ih : ArgumentsReadBack ctx es) : ArgumentsReadBack ctx (e :: es) := by
  intro fuel taken c next close hclose _ hlen ho
  rw [List.length_cons] at hlen
  cases fuel with
  | zero => exact .inl rfl
  | succ fuel =>
    rw [argumentList, if_neg (by omega)]
    obtain ⟨_, hfirst, hrest⟩ := Cursor.Offers.append.1 ho
    cases es with
    | nil =>
      cases hrest
      apply (h.expression hfirst (.push_none (by rw [hclose]; rfl))).bind
      intro e' he
      refine .step (accept?_push_ne (by rw [hclose]; decide)) (.pure ?_)
      exact congrArg (· :: []) he
    | cons e₂ es =>
      obtain ⟨comma, _, hc, rfl, hmore⟩ := hrest.mark
      apply (h.expression hfirst (.push_none (by rw [hc]; rfl))).bind
      intro e' he
      refine .step (accept?_push hc (by decide)) ?_
      refine (ih hclose (by simp) (by omega) hmore).bind fun es' hes => .pure ?_
      simp only [Expr.Resembles, argumentsWithoutLines] at he hes ⊢
      rw [he, hes]

theorem ReadsBack.call {ctx : Context} {callee : Expr} {arguments : List Expr} {line : Nat}
    (hcall : Expr.callLevel ≤ callee.tightness) (ih : ReadsBack ctx callee)
    (hlen : arguments.length ≤ Capped.limit) (hargs : argumentsGrammatical ctx.inClass arguments)
    (iha : ArgumentsReadBack ctx arguments) : ReadsBack ctx (.call callee arguments line) := by
  apply of_calls
  intro fuel c mid last wanted ho hf
  obtain ⟨_, hcallee, hrest⟩ := Cursor.Offers.append.1 ho
  obtain ⟨paren, _, hp, rfl, hin⟩ := hrest.mark
  obtain ⟨_, harguments, hend⟩ := Cursor.Offers.append.1 hin
  obtain ⟨close, _, hc, rfl, rfl⟩ := hend.mark
  apply ih.calls hcall hcallee
  intro fuel callee' hcallee'
  cases fuel with
  | zero => exact .inl rfl
  | succ fuel =>
    rw [callsAfter]
    simp only [choice_bind]
    refine .step (accept?_push hp (by decide)) ?_
    cases arguments with
    | nil =>
      cases harguments
      refine .step (sees_push hc (by decide)) (.step rfl ?_)
      exact .step (expect_push hc (by decide)) (hf fuel _ (congrArg (Expr.call · [] 0) hcallee'))
    | cons e es =>
      obtain ⟨t, _, rfl, ht⟩ := opens_of_offers hargs.1 harguments
      refine .step (sees_push_ne (opensExpression_ne ht rfl)) ?_
      apply (iha hc (by simp) (by omega) harguments).bind
      intro arguments' ha
      refine .step (expect_push hc (by decide)) (hf fuel _ ?_)
      simp only [Expr.Resembles, Expr.withoutLines] at hcallee' ⊢
      rw [hcallee', ha]

mutual
theorem readsBack {ctx : Context} : (e : Expr) → e.Grammatical ctx.inClass → ReadsBack ctx e
  | .literal _ _, _ => .literal
  | .group inner _, h => .group (readsBack inner h)
  | .unary _ right _, ⟨hr, h⟩ => .unary_op hr (readsBack right h)
  | .binary left _ right _, ⟨⟨hl, h⟩, hr, h'⟩ =>
    .binary hl (readsBack left h) hr (readsBack right h')
  | .read _ _, h => .read h
  | .this _ _, ⟨ho, hclass⟩ => ho ▸ .this hclass
  | .assign _ value _, ⟨ht, h⟩ => .assign ht (readsBack value h)
  | .get object _ _, ⟨hcall, h⟩ => .get hcall (readsBack object h)
  | .set object _ value _, ⟨⟨hcall, h⟩, h'⟩ => .set hcall (readsBack object h) (readsBack value h')
  | .call callee arguments _, ⟨⟨hcall, h⟩, hlen, hargs⟩ =>
    .call hcall (readsBack callee h) hlen hargs (argumentsReadBack arguments hargs)

theorem argumentsReadBack {ctx : Context} :
    (es : List Expr) → argumentsGrammatical ctx.inClass es → ArgumentsReadBack ctx es
  | [], _ => fun _ _ _ _ _ _ hne => absurd rfl hne
  | e :: rest, ⟨h, hrest⟩ => .cons (readsBack e h) (argumentsReadBack rest hrest)
end

end Lox.Grammar
