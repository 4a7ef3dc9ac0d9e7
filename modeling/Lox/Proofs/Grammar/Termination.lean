import Lox.Proofs.Grammar.StatementSoundness

/-! Fuel: every rule that goes on without a token taken has a place in an order of sixteen, so
sixteen units for every token suffice. -/
namespace Lox.Grammar

def Rule.Finishes {α : Type} (r : Rule α) (c : Cursor) : Prop := r c ≠ .outOfFuel

namespace Rule.Finishes

theorem bind {α β : Type} {r : Rule α} {f : α → Rule β} {c : Cursor} (h : r.Finishes c)
    (hf : ∀ a next, r c = .done a next → (f a).Finishes next) : (r >>= f).Finishes c := by
  rw [Finishes, Rule.bind_apply]
  cases hr : r c with
  | done a next => exact hf a next hr
  | failed => simp
  | outOfFuel => exact absurd hr h

theorem of_done {α : Type} {r : Rule α} {c next : Cursor} {a : α} (h : r c = .done a next) :
    r.Finishes c := by
  rw [Finishes, h]
  simp

theorem pure {α : Type} (a : α) (c : Cursor) : (Pure.pure a : Rule α).Finishes c := of_done rfl

end Rule.Finishes

theorem fault_finishes {α : Type} (line : Nat) (f : GrammarFault) (c : Cursor) :
    (fault line f : Rule α).Finishes c := by
  simp [Rule.Finishes, fault]

theorem faultHere_finishes {α : Type} (f : GrammarFault) (c : Cursor) :
    (faultHere f : Rule α).Finishes c := by
  simp [Rule.Finishes, faultHere]

theorem reportHere_finishes (f : GrammarFault) (c : Cursor) : (reportHere f).Finishes c :=
  .of_done rfl

theorem sees_finishes (kind : Kind) (c : Cursor) : (sees kind).Finishes c := .of_done rfl

theorem atEnd_finishes (c : Cursor) : atEnd.Finishes c := .of_done rfl

theorem accept?_finishes (kind : Kind) (c : Cursor) : (accept? kind).Finishes c := by
  unfold Rule.Finishes accept?
  split
  · simp
  · split <;> simp

theorem acceptSome?_finishes {α : Type} (f : Kind → Option α) (c : Cursor) :
    (acceptSome? f).Finishes c := by
  unfold Rule.Finishes acceptSome?
  split
  · simp
  · split <;> simp

theorem expect_finishes (kind : Kind) (what : Expected) (c : Cursor) :
    (expect kind what).Finishes c :=
  (accept?_finishes kind c).bind fun t? _ _ => by
    cases t? with
    | none => exact faultHere_finishes _ _
    | some t => exact .pure _ _

open Rule.Finishes

/-- How much fuel the rules for expressions need in front of so many tokens. -/
structure ExpressionsFinish (fuel : Nat) : Prop where
  expression {ctx : Context} {c : Cursor} :
    16 * c.rest.length + 10 ≤ fuel → (expression fuel ctx).Finishes c
  operators {ctx : Context} {c : Cursor} {k : Nat} (hk : k ≤ tiers.length) :
    16 * c.rest.length + 9 ≤ fuel + k → (operators fuel ctx (tiers.drop k)).Finishes c
  operatorsAfter {ctx : Context} {c : Cursor} {left : Expr} {k : Nat} (hk : k < tiers.length) :
    16 * c.rest.length + 1 ≤ fuel →
      (operatorsAfter fuel ctx tiers[k] (tiers.drop (k + 1)) left).Finishes c
  unary {ctx : Context} {c : Cursor} :
    16 * c.rest.length + 2 ≤ fuel → (unary fuel ctx).Finishes c
  callsAfter {ctx : Context} {c : Cursor} {callee : Expr} :
    16 * c.rest.length + 1 ≤ fuel → (callsAfter fuel ctx callee).Finishes c
  argumentList {ctx : Context} {c : Cursor} {taken : Nat} :
    16 * c.rest.length + 11 ≤ fuel → (argumentList fuel ctx taken).Finishes c
  primary {ctx : Context} {c : Cursor} :
    16 * c.rest.length + 1 ≤ fuel → (primary fuel ctx).Finishes c

namespace ExpressionsFinish

variable {fuel : Nat} {ctx : Context} {c : Cursor}

theorem zero : ExpressionsFinish 0 where
  expression h := by omega
  operators hk h := by
    have hk : _ ≤ 6 := hk
    omega
  operatorsAfter _ h := by omega
  unary h := by omega
  callsAfter h := by omega
  argumentList h := by omega
  primary h := by omega

theorem expression_succ (ih : ExpressionsFinish fuel) (h : 16 * c.rest.length + 10 ≤ fuel + 1) :
    (Grammar.expression (fuel + 1) ctx).Finishes c := by
  rw [Grammar.expression]
  apply (ih.operators (k := 0) (by omega) (by omega)).bind
  intro target mid ht
  have ht := ((expressionsSound fuel).operators (k := 0) (by omega) ht).length_le
  apply (accept?_finishes _ _).bind
  intro sign? behind hs
  cases sign? with
  | none => exact pure _ _
  | some sign =>
    have hs := (accept?_some hs).length_eq
    apply (ih.expression (by omega)).bind
    intro value _ _
    cases target <;> first | exact pure _ _ | exact fault_finishes _ _ _

theorem operators_succ (ih : ExpressionsFinish fuel) {k : Nat} (hk : k ≤ tiers.length)
    (h : 16 * c.rest.length + 9 ≤ fuel + 1 + k) :
    (Grammar.operators (fuel + 1) ctx (tiers.drop k)).Finishes c := by
  rcases Nat.lt_or_eq_of_le hk with hlt | rfl
  · rw [tiers_drop hlt, Grammar.operators]
    apply (ih.operators hlt (by omega)).bind
    intro left mid hl
    have hl := ((expressionsSound fuel).operators hlt hl).length_le
    have hlt' : k < 6 := hlt
    exact ih.operatorsAfter hlt (by omega)
  · rw [List.drop_length, Grammar.operators]
    have hlen : tiers.length = 6 := rfl
    exact ih.unary (by omega)

theorem operatorsAfter_succ (ih : ExpressionsFinish fuel) {left : Expr} {k : Nat}
    (hk : k < tiers.length) (h : 16 * c.rest.length + 1 ≤ fuel + 1) :
    (Grammar.operatorsAfter (fuel + 1) ctx tiers[k] (tiers.drop (k + 1)) left).Finishes c := by
  rw [Grammar.operatorsAfter]
  apply (acceptSome?_finishes _ _).bind
  intro found? mid hf
  cases found? with
  | none => exact pure _ _
  | some found =>
    have hf := (acceptSome?_some (tier_eof hk) hf).2.length_eq
    apply (ih.operators hk (by omega)).bind
    intro right last hr
    have hr := ((expressionsSound fuel).operators hk hr).length_le
    exact ih.operatorsAfter hk (by omega)

theorem unary_succ (ih : ExpressionsFinish fuel) (h : 16 * c.rest.length + 2 ≤ fuel + 1) :
    (Grammar.unary (fuel + 1) ctx).Finishes c := by
  rw [Grammar.unary]
  apply (acceptSome?_finishes _ _).bind
  intro found? mid hf
  cases found? with
  | none =>
    cases acceptSome?_none hf
    apply (ih.primary (by omega)).bind
    intro callee mid hp
    have hp := ((expressionsSound fuel).primary hp).length_le
    exact ih.callsAfter (by omega)
  | some found =>
    have hf := (acceptSome?_some rfl hf).2.length_eq
    exact (ih.unary (by omega)).bind fun _ _ _ => pure _ _

theorem callsAfter_succ (ih : ExpressionsFinish fuel) {callee : Expr}
    (h : 16 * c.rest.length + 1 ≤ fuel + 1) :
    (Grammar.callsAfter (fuel + 1) ctx callee).Finishes c := by
  simp only [Grammar.callsAfter, choice_bind]
  apply (accept?_finishes _ _).bind
  intro paren? mid hp
  cases paren? with
  | some paren =>
    have hp := (accept?_some hp).length_eq
    apply (sees_finishes _ _).bind
    intro seen _ hs
    obtain ⟨rfl, -⟩ := sees_done hs
    refine bind ?_ fun arguments behind ha => ?_
    · cases seen with
      | true => exact pure _ _
      | false => exact ih.argumentList (by omega)
    have ha := ((expressionsSound fuel).argumentsUpToEnd ha).length_le
    apply (expect_finishes _ _ _).bind
    intro _ last hc
    have hc := (expect_done hc).length_eq
    exact ih.callsAfter (by omega)
  | none =>
    obtain ⟨rfl, -⟩ := accept?_none hp
    apply (accept?_finishes _ _).bind
    intro dot? behind hd
    cases dot? with
    | none => exact pure _ _
    | some dot =>
      have hd := (accept?_some hd).length_eq
      apply (expect_finishes _ _ _).bind
      intro _ last hn
      have hn := (expect_done hn).length_eq
      exact ih.callsAfter (by omega)

theorem argumentList_succ (ih : ExpressionsFinish fuel) {taken : Nat}
    (h : 16 * c.rest.length + 11 ≤ fuel + 1) :
    (Grammar.argumentList (fuel + 1) ctx taken).Finishes c := by
  rw [Grammar.argumentList, optional_bind]
  refine bind ?_ fun _ checked hc => ?_
  · split
    · exact reportHere_finishes _ _
    · exact pure _ _
  have hc := (lengthCheck_reads hc).length_le
  apply (ih.expression (by omega)).bind
  intro argument mid ha
  have ha := ((expressionsSound fuel).expression ha).length_le
  apply (accept?_finishes _ _).bind
  intro comma? behind hcomma
  cases comma? with
  | none => exact pure _ _
  | some comma =>
    have hcomma := (accept?_some hcomma).length_eq
    exact (ih.argumentList (by omega)).bind fun _ _ _ => pure _ _

theorem primary_succ (ih : ExpressionsFinish fuel) (h : 16 * c.rest.length + 1 ≤ fuel + 1) :
    (Grammar.primary (fuel + 1) ctx).Finishes c := by
  rw [Grammar.primary]
  apply (acceptSome?_finishes _ _).bind
  intro literal? c₁ hl
  cases literal? with
  | some literal => exact pure _ _
  | none =>
  cases acceptSome?_none hl
  apply (accept?_finishes _ _).bind
  intro name? c₂ hn
  cases name? with
  | some name => exact pure _ _
  | none =>
  obtain ⟨rfl, -⟩ := accept?_none hn
  apply (accept?_finishes _ _).bind
  intro this? c₃ ht
  cases this? with
  | some this =>
    simp only
    split
    · exact pure _ _
    · exact fault_finishes _ _ _
  | none =>
  obtain ⟨rfl, -⟩ := accept?_none ht
  apply (accept?_finishes _ _).bind
  intro paren? c₄ hp
  cases paren? with
  | some paren =>
    have hp := (accept?_some hp).length_eq
    apply (ih.expression (by omega)).bind
    intro _ _ _
    exact (expect_finishes _ _ _).bind fun _ _ _ => pure _ _
  | none =>
    apply (atEnd_finishes _).bind
    intro ended _ _
    cases ended <;> exact faultHere_finishes _ _

end ExpressionsFinish

theorem expressionsFinish (fuel : Nat) : ExpressionsFinish fuel := by
  induction fuel with
  | zero => exact .zero
  | succ fuel ih =>
    exact {
      expression := ih.expression_succ
      operators := ih.operators_succ
      operatorsAfter := ih.operatorsAfter_succ
      unary := ih.unary_succ
      callsAfter := ih.callsAfter_succ
      argumentList := ih.argumentList_succ
      primary := ih.primary_succ }

section
variable {fuel : Nat} {ctx : Context} {c : Cursor}

theorem expression_finishes (h : 16 * c.rest.length + 10 ≤ fuel) :
    (expression fuel ctx).Finishes c := (expressionsFinish fuel).expression h

theorem unlessSees_finishes {kind : Kind} (h : 16 * c.rest.length + 10 ≤ fuel) :
    (unlessSees kind (expression fuel ctx)).Finishes c := by
  apply (sees_finishes _ _).bind
  intro seen _ hs
  obtain ⟨rfl, -⟩ := sees_done hs
  cases seen with
  | true => exact pure _ _
  | false => exact (expression_finishes h).bind fun _ _ _ => pure _ _

theorem varDeclaration_finishes {line : Nat} (h : 16 * c.rest.length + 1 ≤ fuel) :
    (varDeclaration fuel ctx line).Finishes c := by
  apply (expect_finishes _ _ _).bind
  intro name mid hn
  have hn := (expect_done hn).length_eq
  apply (accept?_finishes _ _).bind
  intro sign? behind hs
  cases sign? with
  | none => exact (pure _ _).bind fun _ _ _ => (expect_finishes _ _ _).bind fun _ _ _ => pure _ _
  | some sign =>
    have hs := (accept?_some hs).length_eq
    refine (expression_finishes (by omega)).bind fun _ _ _ => (pure _ _).bind ?_
    intro _ _ _
    exact (expect_finishes _ _ _).bind fun _ _ _ => pure _ _

theorem forInit_finishes (h : 16 * c.rest.length + 10 ≤ fuel) :
    (forInit fuel ctx).Finishes c := by
  apply (accept?_finishes _ _).bind
  intro semicolon? _ hs
  cases semicolon? with
  | some semicolon => exact pure _ _
  | none =>
  obtain ⟨rfl, -⟩ := accept?_none hs
  apply (accept?_finishes _ _).bind
  intro var? _ hv
  cases var? with
  | some keyword =>
    have hv := (accept?_some hv).length_eq
    exact (varDeclaration_finishes (by omega)).bind fun _ _ _ => pure _ _
  | none =>
    obtain ⟨rfl, -⟩ := accept?_none hv
    apply (expression_finishes h).bind
    intro _ _ _
    exact (expect_finishes _ _ _).bind fun _ _ _ => pure _ _

theorem parameterList_finishes {taken : Nat} (h : 16 * c.rest.length + 1 ≤ fuel) :
    (parameterList fuel taken).Finishes c := by
  induction fuel generalizing c taken with
  | zero => omega
  | succ fuel ih =>
    rw [parameterList, optional_bind]
    refine bind ?_ fun _ checked hc => ?_
    · split
      · exact reportHere_finishes _ _
      · exact pure _ _
    have hc := (lengthCheck_reads hc).length_le
    apply (expect_finishes _ _ _).bind
    intro param mid hp
    have hp := (expect_done hp).length_eq
    apply (accept?_finishes _ _).bind
    intro comma? behind hcomma
    cases comma? with
    | none => exact pure _ _
    | some comma =>
      have hcomma := (accept?_some hcomma).length_eq
      exact (ih (by omega)).bind fun _ _ _ => pure _ _

theorem loopExit_finishes {exit : LoopExit} {close : Expected} {line : Nat} :
    (loopExit ctx exit close line).Finishes c := by
  unfold loopExit
  split
  · exact fault_finishes _ _ _
  · exact (expect_finishes _ _ _).bind fun _ _ _ => pure _ _

theorem returnStatement_finishes {line : Nat} (h : 16 * c.rest.length + 10 ≤ fuel) :
    (returnStatement fuel ctx line).Finishes c := by
  unfold returnStatement
  split
  · exact fault_finishes _ _ _
  · apply (unlessSees_finishes h).bind
    intro _ _ _
    exact (expect_finishes _ _ _).bind fun _ _ _ => pure _ _

theorem printStatement_finishes {line : Nat} (h : 16 * c.rest.length + 10 ≤ fuel) :
    (printStatement fuel ctx line).Finishes c :=
  (expression_finishes h).bind fun _ _ _ => (expect_finishes _ _ _).bind fun _ _ _ => pure _ _

theorem expressionStatement_finishes (h : 16 * c.rest.length + 10 ≤ fuel) :
    (expressionStatement fuel ctx).Finishes c :=
  (expression_finishes h).bind fun _ _ _ => (expect_finishes _ _ _).bind fun _ _ _ => pure _ _

end

/-- How much fuel the rules for statements need in front of so many tokens. -/
structure StatementsFinish (fuel : Nat) : Prop where
  declaration {ctx : Context} {c : Cursor} :
    16 * c.rest.length + 12 ≤ fuel → (declaration fuel ctx).Finishes c
  classDeclaration {ctx : Context} {line : Nat} {c : Cursor} :
    16 * c.rest.length + 1 ≤ fuel → (classDeclaration fuel ctx line).Finishes c
  methodList {ctx : Context} {c : Cursor} :
    16 * c.rest.length + 2 ≤ fuel → (methodList fuel ctx).Finishes c
  function {ctx : Context} {start : Option Nat} {c : Cursor} :
    16 * c.rest.length + 1 ≤ fuel → (function fuel ctx start).Finishes c
  statementList {ctx : Context} {c : Cursor} :
    16 * c.rest.length + 13 ≤ fuel → (statementList fuel ctx).Finishes c
  statement {ctx : Context} {c : Cursor} :
    16 * c.rest.length + 11 ≤ fuel → (statement fuel ctx).Finishes c
  forStatement {ctx : Context} {line : Nat} {c : Cursor} :
    16 * c.rest.length + 1 ≤ fuel → (forStatement fuel ctx line).Finishes c
  whileStatement {ctx : Context} {line : Nat} {c : Cursor} :
    16 * c.rest.length + 1 ≤ fuel → (whileStatement fuel ctx line).Finishes c
  ifStatement {ctx : Context} {line : Nat} {c : Cursor} :
    16 * c.rest.length + 1 ≤ fuel → (ifStatement fuel ctx line).Finishes c

namespace StatementsFinish

variable {fuel : Nat} {ctx : Context} {c : Cursor} {line : Nat}

theorem zero : StatementsFinish 0 where
  declaration h := by omega
  classDeclaration h := by omega
  methodList h := by omega
  function h := by omega
  statementList h := by omega
  statement h := by omega
  forStatement h := by omega
  whileStatement h := by omega
  ifStatement h := by omega

theorem declaration_succ (ih : StatementsFinish fuel) (h : 16 * c.rest.length + 12 ≤ fuel + 1) :
    (Grammar.declaration (fuel + 1) ctx).Finishes c := by
  rw [Grammar.declaration]
  apply (accept?_finishes _ _).bind
  intro class? _ hc
  cases class? with
  | some keyword =>
    have hc := (accept?_some hc).length_eq
    exact ih.classDeclaration (by omega)
  | none =>
  obtain ⟨rfl, -⟩ := accept?_none hc
  apply (accept?_finishes _ _).bind
  intro fun? _ hf
  cases fun? with
  | some keyword =>
    have hf := (accept?_some hf).length_eq
    exact (ih.function (by omega)).bind fun _ _ _ => pure _ _
  | none =>
  obtain ⟨rfl, -⟩ := accept?_none hf
  apply (accept?_finishes _ _).bind
  intro var? _ hv
  cases var? with
  | some keyword =>
    have hv := (accept?_some hv).length_eq
    exact (varDeclaration_finishes (by omega)).bind fun _ _ _ => pure _ _
  | none =>
    obtain ⟨rfl, -⟩ := accept?_none hv
    exact ih.statement (by omega)

theorem classDeclaration_succ (ih : StatementsFinish fuel)
    (h : 16 * c.rest.length + 1 ≤ fuel + 1) :
    (Grammar.classDeclaration (fuel + 1) ctx line).Finishes c := by
  rw [Grammar.classDeclaration]
  apply (expect_finishes _ _ _).bind
  intro name _ hn
  have hn := (expect_done hn).length_eq
  apply (expect_finishes _ _ _).bind
  intro _ _ ho
  have ho := (expect_done ho).length_eq
  apply (ih.methodList (by omega)).bind
  intro _ _ _
  exact (expect_finishes _ _ _).bind fun _ _ _ => pure _ _

theorem methodList_succ (ih : StatementsFinish fuel) (h : 16 * c.rest.length + 2 ≤ fuel + 1) :
    (Grammar.methodList (fuel + 1) ctx).Finishes c := by
  have hmore {start : Option Nat} {c₁ : Cursor} (h₁ : c₁.rest.length ≤ c.rest.length) :
      (do
        let method ← Grammar.function fuel ctx start
        let more ← Grammar.methodList fuel ctx
        pure (method :: more)).Finishes c₁ := by
    apply (ih.function (by omega)).bind
    intro method _ hm
    have hm := ((statementsSound fuel).function hm).length_le
    exact (ih.methodList (by omega)).bind fun _ _ _ => pure _ _
  rw [Grammar.methodList]
  apply (sees_finishes _ _).bind
  intro closed _ hs
  obtain ⟨rfl, -⟩ := sees_done hs
  cases closed with
  | true => exact pure _ _
  | false =>
  apply (atEnd_finishes _).bind
  intro ended _ he
  obtain ⟨rfl, -⟩ := atEnd_done he
  cases ended with
  | true => exact faultHere_finishes _ _
  | false =>
  apply (accept?_finishes _ _).bind
  intro fun? _ hf
  cases fun? with
  | some keyword =>
    have hf := (accept?_some hf).length_eq
    exact hmore (by omega)
  | none =>
    obtain ⟨rfl, -⟩ := accept?_none hf
    apply (sees_finishes _ _).bind
    intro named _ hn
    obtain ⟨rfl, -⟩ := sees_done hn
    cases named with
    | true => exact hmore (Nat.le_refl _)
    | false => exact faultHere_finishes _ _

theorem function_succ (ih : StatementsFinish fuel) {start : Option Nat}
    (h : 16 * c.rest.length + 1 ≤ fuel + 1) :
    (Grammar.function (fuel + 1) ctx start).Finishes c := by
  simp only [Grammar.function, choice_bind]
  apply (expect_finishes _ _ _).bind
  intro name _ hn
  have hn := (expect_done hn).length_eq
  apply (expect_finishes _ _ _).bind
  intro _ _ ho
  have ho := (expect_done ho).length_eq
  apply (sees_finishes _ _).bind
  intro seen _ hs
  obtain ⟨rfl, -⟩ := sees_done hs
  refine bind ?_ fun params _ hp => ?_
  · cases seen with
    | true => exact pure _ _
    | false => exact parameterList_finishes (by omega)
  have hp := (StatementsSound.parametersUpToEnd hp).length_le
  apply (expect_finishes _ _ _).bind
  intro _ _ hc
  have hc := (expect_done hc).length_eq
  apply (expect_finishes _ _ _).bind
  intro _ _ hb
  have hb := (expect_done hb).length_eq
  apply (ih.statementList (by omega)).bind
  intro _ _ _
  exact (expect_finishes _ _ _).bind fun _ _ _ => pure _ _

theorem statementList_succ (ih : StatementsFinish fuel)
    (h : 16 * c.rest.length + 13 ≤ fuel + 1) :
    (Grammar.statementList (fuel + 1) ctx).Finishes c := by
  rw [Grammar.statementList]
  apply (sees_finishes _ _).bind
  intro closed _ hs
  obtain ⟨rfl, -⟩ := sees_done hs
  cases closed with
  | true => exact pure _ _
  | false =>
  apply (atEnd_finishes _).bind
  intro ended _ he
  obtain ⟨rfl, -⟩ := atEnd_done he
  cases ended with
  | true => exact pure _ _
  | false =>
    apply (ih.declaration (by omega)).bind
    intro first _ hf
    have hf := ((statementsSound fuel).declaration hf).reads.length_le
    exact (ih.statementList (by omega)).bind fun _ _ _ => pure _ _

theorem statement_succ (ih : StatementsFinish fuel) (h : 16 * c.rest.length + 11 ≤ fuel + 1) :
    (Grammar.statement (fuel + 1) ctx).Finishes c := by
  rw [Grammar.statement]
  apply (acceptSome?_finishes _ _).bind
  intro found? _ hf
  cases found? with
  | none =>
    cases acceptSome?_none hf
    exact expressionStatement_finishes (by omega)
  | some found =>
    rcases found with ⟨opening, t⟩
    have hf := (acceptSome?_some rfl hf).2.length_eq
    cases opening with
    | forLoop => exact ih.forStatement (by omega)
    | ifElse => exact ih.ifStatement (by omega)
    | whileLoop => exact ih.whileStatement (by omega)
    | returns => exact returnStatement_finishes (by omega)
    | exit e close => exact loopExit_finishes
    | print => exact printStatement_finishes (by omega)
    | block =>
      apply (ih.statementList (by omega)).bind
      intro _ _ _
      exact (expect_finishes _ _ _).bind fun _ _ _ => pure _ _

theorem forStatement_succ (ih : StatementsFinish fuel)
    (h : 16 * c.rest.length + 1 ≤ fuel + 1) :
    (Grammar.forStatement (fuel + 1) ctx line).Finishes c := by
  rw [Grammar.forStatement]
  apply (expect_finishes _ _ _).bind
  intro _ _ ho
  have ho := (expect_done ho).length_eq
  apply (forInit_finishes (by omega)).bind
  intro init _ hi
  have hi := (forInit_reads hi).length_le
  apply (unlessSees_finishes (by omega)).bind
  intro condition _ hc
  have hc := (unlessSees_reads hc).length_le
  apply (expect_finishes _ _ _).bind
  intro _ _ hsemi
  have hsemi := (expect_done hsemi).length_eq
  apply (unlessSees_finishes (by omega)).bind
  intro increment _ hn
  have hn := (unlessSees_reads hn).length_le
  apply (expect_finishes _ _ _).bind
  intro _ _ hclose
  have hclose := (expect_done hclose).length_eq
  exact (ih.statement (by omega)).bind fun _ _ _ => pure _ _

theorem whileStatement_succ (ih : StatementsFinish fuel)
    (h : 16 * c.rest.length + 1 ≤ fuel + 1) :
    (Grammar.whileStatement (fuel + 1) ctx line).Finishes c := by
  rw [Grammar.whileStatement]
  apply (expect_finishes _ _ _).bind
  intro _ _ ho
  have ho := (expect_done ho).length_eq
  apply (expression_finishes (by omega)).bind
  intro condition _ hc
  have hc := ((expressionsSound fuel).expression hc).length_le
  apply (expect_finishes _ _ _).bind
  intro _ _ hclose
  have hclose := (expect_done hclose).length_eq
  exact (ih.statement (by omega)).bind fun _ _ _ => pure _ _

theorem ifStatement_succ (ih : StatementsFinish fuel)
    (h : 16 * c.rest.length + 1 ≤ fuel + 1) :
    (Grammar.ifStatement (fuel + 1) ctx line).Finishes c := by
  rw [Grammar.ifStatement]
  apply (expect_finishes _ _ _).bind
  intro _ _ ho
  have ho := (expect_done ho).length_eq
  apply (expression_finishes (by omega)).bind
  intro condition _ hc
  have hc := ((expressionsSound fuel).expression hc).length_le
  apply (expect_finishes _ _ _).bind
  intro _ _ hclose
  have hclose := (expect_done hclose).length_eq
  apply (ih.statement (by omega)).bind
  intro thenBranch _ ht
  have ht := ((statementsSound fuel).statement ht).2.reads.length_le
  apply (accept?_finishes _ _).bind
  intro else? _ he
  cases else? with
  | none => exact pure _ _
  | some keyword =>
    have he := (accept?_some he).length_eq
    exact (ih.statement (by omega)).bind fun _ _ _ => pure _ _

end StatementsFinish

theorem statementsFinish (fuel : Nat) : StatementsFinish fuel := by
  induction fuel with
  | zero => exact .zero
  | succ fuel ih =>
    exact {
      declaration := ih.declaration_succ
      classDeclaration := ih.classDeclaration_succ
      methodList := ih.methodList_succ
      function := ih.function_succ
      statementList := ih.statementList_succ
      statement := ih.statement_succ
      forStatement := ih.forStatement_succ
      whileStatement := ih.whileStatement_succ
      ifStatement := ih.ifStatement_succ }

theorem program_isSome {fuel : Nat} {c : Cursor} (h : 16 * c.rest.length + 13 ≤ fuel) :
    (program fuel c).isSome := by
  induction fuel generalizing c with
  | zero => omega
  | succ fuel ih =>
    rw [program]
    split
    · rfl
    cases hd : declaration fuel .top c with
    | done s next =>
      have hd := ((statementsSound fuel).declaration hd).reads.length_le
      simpa using ih (by omega)
    | failed => rfl
    | outOfFuel => exact absurd hd ((statementsFinish fuel).declaration (by omega))

/-- The fuel of `parse` always suffices. -/
theorem program_eq_parse (tokens : List Token) :
    program (enoughFuel tokens) ⟨tokens, []⟩ = some (parse tokens) := by
  have h : (program (enoughFuel tokens) ⟨tokens, []⟩).isSome :=
    program_isSome (Nat.add_le_add_left (by decide) _)
  obtain ⟨p, hp⟩ := Option.isSome_iff_exists.1 h
  rw [parse, hp, Option.getD_some]

end Lox.Grammar
