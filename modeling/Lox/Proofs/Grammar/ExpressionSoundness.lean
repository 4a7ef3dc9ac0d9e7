import Lox.Proofs.Grammar.Reading
import Mathlib.Tactic.IntervalCases

/-! An expression that is read obeys the grammar and is spelled by the tokens that it took. -/
namespace Lox.Grammar

theorem tiers_drop {k : Nat} (h : k < tiers.length) :
    tiers.drop k = tiers[k] :: tiers.drop (k + 1) := List.drop_eq_getElem_cons h

theorem tier_level {k : Nat} (h : k < tiers.length) {kind : Kind} {op : BinaryOp}
    (ho : tiers[k] kind = some op) : op.tightness = k + 1 ∧ op.kind = kind := by
  have hk : k < 6 := h
  interval_cases k <;> cases kind <;> cases ho <;> decide

theorem tier_eof {k : Nat} (h : k < tiers.length) : tiers[k] .eof = none := by
  have hk : k < 6 := h
  interval_cases k <;> rfl

theorem unaryTier_kind {kind : Kind} {op : UnaryOp} (h : unaryTier kind = some op) :
    op.kind = kind := by
  cases kind <;> cases h <;> rfl

theorem isMark_binaryOp (op : BinaryOp) : isMark op.kind := by
  cases op with
  | strict op => cases op <;> rfl
  | _ => rfl

theorem isMark_unaryOp (op : UnaryOp) : isMark op.kind := by cases op <;> rfl

/-- What every rule for expressions promises with some fuel. -/
structure ExpressionsSound (fuel : Nat) : Prop where
  expression {ctx : Context} {c next : Cursor} {e : Expr} :
    expression fuel ctx c = .done e next →
      c.Reads 1 next (· = e.symbols) (e.Grammatical ctx.inClass)
  operators {ctx : Context} {c next : Cursor} {e : Expr} {k : Nat} (hk : k ≤ tiers.length) :
    operators fuel ctx (tiers.drop k) c = .done e next →
      c.Reads 1 next (· = e.symbols) (k < e.tightness ∧ e.Grammatical ctx.inClass)
  operatorsAfter {ctx : Context} {c next : Cursor} {left e : Expr} {k : Nat}
      (hk : k < tiers.length) :
    operatorsAfter fuel ctx tiers[k] (tiers.drop (k + 1)) left c = .done e next →
      c.Reads 0 next (fun w => left.symbols ++ w = e.symbols)
        (k < left.tightness ∧ left.Grammatical ctx.inClass →
          k < e.tightness ∧ e.Grammatical ctx.inClass)
  unary {ctx : Context} {c next : Cursor} {e : Expr} :
    unary fuel ctx c = .done e next →
      c.Reads 1 next (· = e.symbols)
        (Expr.prefixLevel ≤ e.tightness ∧ e.Grammatical ctx.inClass)
  callsAfter {ctx : Context} {c next : Cursor} {callee e : Expr} :
    callsAfter fuel ctx callee c = .done e next →
      c.Reads 0 next (fun w => callee.symbols ++ w = e.symbols)
        (Expr.callLevel ≤ callee.tightness ∧ callee.Grammatical ctx.inClass →
          Expr.callLevel ≤ e.tightness ∧ e.Grammatical ctx.inClass)
  argumentList {ctx : Context} {c next : Cursor} {taken : Nat} {es : List Expr} :
    argumentList fuel ctx taken c = .done es next →
      es ≠ [] ∧ c.Reads 1 next (· = argumentSymbols es)
        (taken ≤ Capped.limit →
          taken + es.length ≤ Capped.limit ∧ argumentsGrammatical ctx.inClass es)
  primary {ctx : Context} {c next : Cursor} {e : Expr} :
    primary fuel ctx c = .done e next →
      c.Reads 1 next (· = e.symbols)
        (Expr.callLevel ≤ e.tightness ∧ e.Grammatical ctx.inClass)

namespace ExpressionsSound

variable {fuel : Nat} {ctx : Context} {c next : Cursor} {e : Expr}

theorem zero : ExpressionsSound 0 where
  expression h := by cases h
  operators _ h := by cases h
  operatorsAfter _ h := by cases h
  unary h := by cases h
  callsAfter h := by cases h
  argumentList h := by cases h
  primary h := by cases h

theorem expression_succ (ih : ExpressionsSound fuel)
    (h : Grammar.expression (fuel + 1) ctx c = .done e next) :
    c.Reads 1 next (· = e.symbols) (e.Grammatical ctx.inClass) := by
  simp only [Grammar.expression, Rule.bind_eq_done_iff] at h
  rcases h with ⟨target, mid, ht, sign?, behind, hs, h⟩
  have hr := ih.operators (k := 0) (Nat.zero_le _) ht
  cases sign? with
  | none =>
    cases h
    obtain ⟨rfl, -⟩ := accept?_none hs
    exact hr.weaken (Nat.le_refl _) (fun _ => id) And.right
  | some sign =>
    simp only [Rule.bind_eq_done_iff] at h
    rcases h with ⟨value, last, hv, h⟩
    have hall := hr.trans (((accept?_some hs).mark rfl).trans (ih.expression hv))
    cases target with
    | read o line =>
      cases h
      refine hall.weaken (by omega) ?_ ?_
      · rintro _ ⟨_, _, rfl, ⟨_, _, rfl, rfl, rfl⟩, rfl⟩
        simp [Expr.symbols]
      · rintro ⟨⟨-, ho⟩, -, hv⟩
        exact ⟨ho, hv⟩
    | get object name line =>
      cases h
      refine hall.weaken (by omega) ?_ ?_
      · rintro _ ⟨_, _, rfl, ⟨_, _, rfl, rfl, rfl⟩, rfl⟩
        simp [Expr.symbols]
      · rintro ⟨⟨-, ho⟩, -, hv⟩
        exact ⟨ho, hv⟩
    | _ => cases h

theorem operators_succ (ih : ExpressionsSound fuel) {k : Nat} (hk : k ≤ tiers.length)
    (h : Grammar.operators (fuel + 1) ctx (tiers.drop k) c = .done e next) :
    c.Reads 1 next (· = e.symbols) (k < e.tightness ∧ e.Grammatical ctx.inClass) := by
  rcases Nat.lt_or_eq_of_le hk with hlt | rfl
  · rw [tiers_drop hlt] at h
    simp only [Grammar.operators, Rule.bind_eq_done_iff] at h
    rcases h with ⟨left, mid, hl, h⟩
    refine ((ih.operators hlt hl).trans (ih.operatorsAfter hlt h)).weaken (by omega) ?_ ?_
    · rintro _ ⟨_, _, rfl, hw, rfl⟩
      exact hw
    · rintro ⟨⟨hk, hg⟩, hw⟩
      exact hw ⟨by omega, hg⟩
  · rw [List.drop_length] at h
    simp only [Grammar.operators] at h
    exact (ih.unary h).weaken (Nat.le_refl _) (fun _ => id) id

theorem operatorsAfter_succ (ih : ExpressionsSound fuel) {left : Expr} {k : Nat}
    (hk : k < tiers.length)
    (h : Grammar.operatorsAfter (fuel + 1) ctx tiers[k] (tiers.drop (k + 1)) left c =
      .done e next) :
    c.Reads 0 next (fun w => left.symbols ++ w = e.symbols)
      (k < left.tightness ∧ left.Grammatical ctx.inClass →
        k < e.tightness ∧ e.Grammatical ctx.inClass) := by
  simp only [Grammar.operatorsAfter, Rule.bind_eq_done_iff] at h
  rcases h with ⟨found?, mid, hf, h⟩
  cases found? with
  | none =>
    cases h
    cases acceptSome?_none hf
    exact (Cursor.Reads.nothing _).weaken (Nat.le_refl _) (by simp) fun _ => id
  | some found =>
    rcases found with ⟨op, t⟩
    obtain ⟨ho, ht⟩ := acceptSome?_some (tier_eof hk) hf
    obtain ⟨hlevel, hkind⟩ := tier_level hk ho
    rw [← hkind] at ht
    simp only [Rule.bind_eq_done_iff] at h
    rcases h with ⟨right, last, hr, h⟩
    refine ((ht.mark (isMark_binaryOp op)).trans
      ((ih.operators hk hr).trans (ih.operatorsAfter hk h))).weaken (by omega) ?_ ?_
    · rintro _ ⟨_, _, rfl, ⟨_, w, rfl, hw, rfl⟩, rfl⟩
      simpa [Expr.symbols] using hw
    · rintro ⟨-, ⟨hright, hgr⟩, hw⟩ ⟨hleft, hgl⟩
      refine hw ⟨?_, ⟨?_, hgl⟩, ?_, hgr⟩
      · simp only [Expr.tightness]
        omega
      · omega
      · omega

theorem unary_succ (ih : ExpressionsSound fuel)
    (h : Grammar.unary (fuel + 1) ctx c = .done e next) :
    c.Reads 1 next (· = e.symbols)
      (Expr.prefixLevel ≤ e.tightness ∧ e.Grammatical ctx.inClass) := by
  simp only [Grammar.unary, Rule.bind_eq_done_iff] at h
  rcases h with ⟨found?, mid, hf, h⟩
  cases found? with
  | none =>
    cases acceptSome?_none hf
    simp only [Rule.bind_eq_done_iff] at h
    rcases h with ⟨callee, mid, hp, h⟩
    refine ((ih.primary hp).trans (ih.callsAfter h)).weaken (by omega) ?_ ?_
    · rintro _ ⟨_, _, rfl, hw, rfl⟩
      exact hw
    · rintro ⟨hg, hw⟩
      exact ⟨Nat.le_trans (by decide) (hw hg).1, (hw hg).2⟩
  | some found =>
    rcases found with ⟨op, t⟩
    obtain ⟨ho, ht⟩ := acceptSome?_some rfl hf
    rw [← unaryTier_kind ho] at ht
    simp only [Rule.bind_eq_done_iff] at h
    rcases h with ⟨right, last, hr, h⟩
    cases h
    refine ((ht.mark (isMark_unaryOp op)).trans (ih.unary hr)).weaken (by omega) ?_ ?_
    · rintro _ ⟨_, _, rfl, rfl, rfl⟩
      simp [Expr.symbols]
    · rintro ⟨-, hg⟩
      exact ⟨Nat.le_refl _, hg⟩

/-- The list between the parentheses of a call, which may be empty. -/
theorem argumentsUpToEnd (ih : ExpressionsSound fuel) {es : List Expr} {seen : Bool}
    (h : (if seen = true then pure [] else Grammar.argumentList fuel ctx 0) c = .done es next) :
    c.Reads 0 next (· = argumentSymbols es)
      (es.length ≤ Capped.limit ∧ argumentsGrammatical ctx.inClass es) := by
  cases seen with
  | true =>
    cases h
    exact (Cursor.Reads.nothing _).weaken (Nat.le_refl _) (fun _ => id)
      fun _ => ⟨Nat.zero_le _, trivial⟩
  | false =>
    refine (ih.argumentList h).2.weaken (Nat.zero_le _) (fun _ => id) fun hg => ?_
    simpa using hg (Nat.zero_le _)

theorem callsAfter_succ (ih : ExpressionsSound fuel) {callee : Expr}
    (h : Grammar.callsAfter (fuel + 1) ctx callee c = .done e next) :
    c.Reads 0 next (fun w => callee.symbols ++ w = e.symbols)
      (Expr.callLevel ≤ callee.tightness ∧ callee.Grammatical ctx.inClass →
        Expr.callLevel ≤ e.tightness ∧ e.Grammatical ctx.inClass) := by
  simp only [Grammar.callsAfter, Rule.bind_eq_done_iff, choice_bind] at h
  rcases h with ⟨paren?, mid, hp, h⟩
  cases paren? with
  | some paren =>
    simp only [Rule.bind_eq_done_iff] at h
    rcases h with ⟨seen, _, hs, arguments, behind, ha, close, last, hc, h⟩
    obtain ⟨rfl, -⟩ := sees_done hs
    refine (((accept?_some hp).mark rfl).trans ((ih.argumentsUpToEnd ha).trans
      (((expect_done hc).mark rfl).trans (ih.callsAfter h)))).weaken (by omega) ?_ ?_
    · rintro _ ⟨_, _, rfl, ⟨_, _, rfl, ⟨_, w, rfl, hw, rfl⟩, rfl⟩, rfl⟩
      simpa [Expr.symbols] using hw
    · rintro ⟨-, hgood, -, hw⟩ hcallee
      exact hw ⟨Nat.le_refl _, hcallee, hgood⟩
  | none =>
    obtain ⟨rfl, -⟩ := accept?_none hp
    simp only [Rule.bind_eq_done_iff] at h
    rcases h with ⟨dot?, behind, hd, h⟩
    cases dot? with
    | some dot =>
      simp only [Rule.bind_eq_done_iff] at h
      rcases h with ⟨name, last, hn, h⟩
      refine (((accept?_some hd).mark rfl).trans ((expect_done hn).identifier.trans
        (ih.callsAfter h))).weaken (by omega) ?_ ?_
      · rintro _ ⟨_, _, rfl, ⟨_, w, rfl, hw, rfl⟩, rfl⟩
        simpa [Expr.symbols] using hw
      · rintro ⟨-, -, hw⟩ hcallee
        exact hw ⟨Nat.le_refl _, hcallee⟩
    | none =>
      cases h
      obtain ⟨rfl, -⟩ := accept?_none hd
      exact (Cursor.Reads.nothing _).weaken (Nat.le_refl _) (by simp) fun _ => id

theorem argumentList_succ (ih : ExpressionsSound fuel) {taken : Nat} {es : List Expr}
    (h : Grammar.argumentList (fuel + 1) ctx taken c = .done es next) :
    es ≠ [] ∧ c.Reads 1 next (· = argumentSymbols es)
      (taken ≤ Capped.limit →
        taken + es.length ≤ Capped.limit ∧ argumentsGrammatical ctx.inClass es) := by
  rw [Grammar.argumentList, optional_bind] at h
  simp only [Rule.bind_eq_done_iff] at h
  rcases h with ⟨_, checked, hc, argument, mid, ha, comma?, behind, hcomma, h⟩
  have hfirst := (lengthCheck_reads hc).trans (ih.expression ha)
  cases comma? with
  | none =>
    cases h
    obtain ⟨rfl, -⟩ := accept?_none hcomma
    refine ⟨by simp, hfirst.weaken (by omega) ?_ ?_⟩
    · rintro _ ⟨_, _, rfl, rfl, rfl⟩
      simp [argumentSymbols]
    · rintro ⟨hne, hg⟩ hle
      exact ⟨Nat.lt_of_le_of_ne hle hne, hg, trivial⟩
  | some comma =>
    simp only [Rule.bind_eq_done_iff] at h
    rcases h with ⟨more, last, hm, h⟩
    cases h
    obtain ⟨hmore, hr⟩ := ih.argumentList hm
    refine ⟨by simp,
      (hfirst.trans (((accept?_some hcomma).mark rfl).trans hr)).weaken (by omega) ?_ ?_⟩
    · rintro _ ⟨_, _, ⟨_, _, rfl, rfl, rfl⟩, ⟨_, _, rfl, rfl, rfl⟩, rfl⟩
      simp [argumentSymbols, hmore]
    · rintro ⟨⟨hne, hg⟩, -, hw⟩ hle
      obtain ⟨hlen, hgs⟩ := hw (Nat.lt_of_le_of_ne hle hne)
      refine ⟨?_, hg, hgs⟩
      rw [List.length_cons]
      omega

theorem primary_succ (ih : ExpressionsSound fuel)
    (h : Grammar.primary (fuel + 1) ctx c = .done e next) :
    c.Reads 1 next (· = e.symbols)
      (Expr.callLevel ≤ e.tightness ∧ e.Grammatical ctx.inClass) := by
  simp only [Grammar.primary, Rule.bind_eq_done_iff] at h
  rcases h with ⟨literal?, c₁, hl, h⟩
  cases literal? with
  | some found =>
    cases h
    obtain ⟨hk, ht⟩ := acceptSome?_some rfl hl
    exact (ht.literal (by simp [Token.isLiteral, hk])).weaken (Nat.le_refl _) (fun _ => id)
      fun _ => ⟨Nat.le_refl _, trivial⟩
  | none =>
  cases acceptSome?_none hl
  simp only [Rule.bind_eq_done_iff] at h
  rcases h with ⟨name?, c₂, hn, h⟩
  cases name? with
  | some name =>
    cases h
    exact (accept?_some hn).identifier.weaken (Nat.le_refl _) (fun _ => id)
      fun _ => ⟨Nat.le_refl _, rfl⟩
  | none =>
  obtain ⟨rfl, -⟩ := accept?_none hn
  simp only [Rule.bind_eq_done_iff] at h
  rcases h with ⟨this?, c₃, ht, h⟩
  cases this? with
  | some this =>
    have htake := (accept?_some ht).mark rfl
    cases hclass : ctx.inClass with
    | false => simp [hclass] at h; cases h
    | true =>
      simp only [hclass, if_true] at h
      cases h
      exact htake.weaken (Nat.le_refl _) (fun _ => id) fun _ => ⟨Nat.le_refl _, rfl, rfl⟩
  | none =>
  obtain ⟨rfl, -⟩ := accept?_none ht
  simp only [Rule.bind_eq_done_iff] at h
  rcases h with ⟨paren?, c₄, hp, h⟩
  cases paren? with
  | some paren =>
    simp only [Rule.bind_eq_done_iff] at h
    rcases h with ⟨inner, mid, hi, close, last, hc, h⟩
    cases h
    refine (((accept?_some hp).mark rfl).trans ((ih.expression hi).trans
      ((expect_done hc).mark rfl))).weaken (by omega) ?_ ?_
    · rintro _ ⟨_, _, rfl, ⟨_, _, rfl, rfl, rfl⟩, rfl⟩
      simp [Expr.symbols]
    · rintro ⟨-, hg, -⟩
      exact ⟨Nat.le_refl _, hg⟩
  | none =>
    simp only [Rule.bind_eq_done_iff] at h
    rcases h with ⟨ended, c₅, -, h⟩
    cases ended <;> cases h

end ExpressionsSound

theorem expressionsSound (fuel : Nat) : ExpressionsSound fuel := by
  induction fuel with
  | zero => exact .zero
  | succ fuel ih =>
    exact {
      expression := ih.expression_succ
      operators := ih.operators_succ
      operatorsAfter := ih.operatorsAfter_succ
      unary := ih.unary_succ
      callsAfter := ih.callsAfter_succ
      argumentList := ih.argumentList_succ
      primary := ih.primary_succ }

end Lox.Grammar
