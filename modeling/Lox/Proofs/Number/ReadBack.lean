import Lox.Proofs.Grammar.ExpressionCompleteness
import Lox.Proofs.Number.Numeral
import Lox.Proofs.Token.Respacing
import Lox.Program

/-! What `print` shows of a finite number, as source text again: its tokens, its expression and its
value. -/
namespace Lox.Number

open Grammar (Context Cursor Rule)
open Lox.Action

/-! Tokens. -/

/-- The text does not go on a number that stands in front of it. -/
def EndsNumber (behind : List Char) : Prop := ∀ c ∈ behind.head?, c.isDigit = false ∧ c ≠ '.'

def Numeral.token (n : Numeral) (line : ℕ) : Token :=
  ⟨.number, String.ofList n.text, .number n.double, line⟩

def minusToken (line : ℕ) : Token := ⟨.minus, "-", .nil, line⟩

def signedTokens (negative : Bool) (n : Numeral) (line : ℕ) : List Token :=
  (if negative then [minusToken line] else []) ++ [n.token line]

section
variable {behind : List Char}

theorem Numeral.all_append (n : Numeral) (h : EndsNumber behind) :
    Segment.all (n.text ++ behind) =
      ⟨n.text, .token .number (.number n.double)⟩ :: Segment.all behind := by
  refine n.lexeme.all_append behind fun c rest hc => ?_
  have hdigit := Numeral.isDigit_head hc
  have halone := n.lexeme
  rw [hc] at halone ⊢
  have halone := halone.first_eq
  cases behind with
  | nil => rwa [List.append_nil]
  | cons d behind =>
    obtain ⟨hd, hpoint⟩ := h d rfl
    rw [Segment.first_of_digit hdigit] at halone ⊢
    rw [Segment.number, Segment.numberTail_append_stop _ _ hd hpoint]
    exact halone

theorem Numeral.newlines_eq (n : Numeral) (content : Content) :
    Segment.newlines ⟨n.text, content⟩ = 0 := by
  refine List.count_eq_zero.2 fun h => ?_
  obtain h | h := Numeral.mem_text h
  · exact absurd h (by decide)
  · exact absurd h (by decide)

/-- A minus sign in front shows whether there is one, since numerals start with digits. -/
theorem signedText_head (negative : Bool) (n : Numeral) :
    negative = true ↔ (signedText negative n).head? = some '-' := by
  cases negative with
  | true => exact ⟨fun _ => rfl, fun _ => rfl⟩
  | false =>
    refine ⟨fun h => Bool.noConfusion h, fun h => ?_⟩
    obtain ⟨rest, hrest⟩ := List.head?_eq_some_iff.1 h
    exact absurd (Numeral.isDigit_head hrest) (by decide)

/-- In any source, on whatever line. -/
theorem ofSegments_signedText (negative : Bool) (n : Numeral) (line : ℕ) (h : EndsNumber behind) :
    Item.ofSegments line (Segment.all (signedText negative n ++ behind)) =
      (signedTokens negative n line).map .token ++ Item.ofSegments line (Segment.all behind) := by
  have hnumber : Item.ofSegments line (Segment.all (n.text ++ behind)) =
      .token (n.token line) :: Item.ofSegments line (Segment.all behind) := by
    simp only [n.all_append h, Item.ofSegments, n.newlines_eq, add_zero]
    rfl
  cases negative with
  | false => exact hnumber
  | true =>
    have hminus (rest : List Char) : Item.ofSegments line (Segment.all ('-' :: rest)) =
        .token (minusToken line) :: Item.ofSegments line (Segment.all rest) := by
      rw [Segment.all]
      rfl
    exact (hminus _).trans (congrArg _ hnumber)

end

/-! The expression. -/

def signedExpr (negative : Bool) (n : Numeral) (line : ℕ) : Expr :=
  let literal := .literal (.number n.double) line
  if negative then .unary .negate literal line else literal

section
variable {ctx : Context} {c start : Cursor} {e : Expr}

theorem unary_numeral {fuel : ℕ} (hfuel : 2 ≤ fuel) (hc : c.LoosensBelow Expr.prefixLevel)
    (n : Numeral) (line : ℕ) :
    Grammar.unary fuel ctx (c.push (n.token line)) =
      .done (.literal (.number n.double) line) c := by
  obtain ⟨fuel, rfl⟩ := Nat.exists_eq_add_of_le' hfuel
  have hsign : Grammar.acceptSome? Grammar.unaryTier (c.push (n.token line)) =
      .done none (c.push (n.token line)) := rfl
  have hprimary : Grammar.primary (fuel + 1) ctx (c.push (n.token line)) =
      .done (.literal (.number n.double) line) c := rfl
  have hcall := Grammar.accept?_of_not_sees (hc.not_sees .leftParen rfl (by decide))
  have hget := Grammar.accept?_of_not_sees (hc.not_sees .dot rfl (by decide))
  rw [Grammar.unary]
  simp only [Rule.bind_apply, hsign, hprimary, Grammar.callsAfter, hcall, hget, Rule.pure_apply]

/-- Looser tiers pass on what the unary rule reads. -/
theorem operators_of_unary {least : ℕ} (hunary : ∀ fuel, least ≤ fuel →
      Grammar.unary fuel ctx start = .done e c) (tiers : List Grammar.Tier)
    (htiers : ∀ tier ∈ tiers, Grammar.acceptSome? tier c = .done none c) (fuel : ℕ)
    (hfuel : least + 1 + tiers.length ≤ fuel) :
    Grammar.operators fuel ctx tiers start = .done e c := by
  induction tiers generalizing fuel with
  | nil =>
    obtain ⟨fuel, rfl⟩ : ∃ k, fuel = k + 1 := ⟨fuel - 1, by omega⟩
    rw [Grammar.operators]
    exact hunary fuel (by omega)
  | cons tier tighter ih =>
    rw [List.length_cons] at hfuel
    obtain ⟨fuel, rfl⟩ : ∃ k, fuel = k + 2 := ⟨fuel - 2, by omega⟩
    rw [Grammar.operators]
    simp only [Rule.bind_apply, ih (fun t ht => htiers t (List.mem_cons_of_mem _ ht)) (fuel + 1)
      (by omega), Grammar.operatorsAfter, htiers tier List.mem_cons_self, Rule.pure_apply]

theorem unary_signed (negative : Bool) (n : Numeral) (line : ℕ)
    (hc : c.LoosensBelow Expr.prefixLevel) {fuel : ℕ} (hfuel : 3 ≤ fuel) :
    Grammar.unary fuel ctx ⟨signedTokens negative n line ++ c.rest, c.reports⟩ =
      .done (signedExpr negative n line) c := by
  cases negative with
  | false => exact unary_numeral (by omega) hc n line
  | true =>
    obtain ⟨fuel, rfl⟩ := Nat.exists_eq_add_of_le' hfuel
    have hsign : Grammar.acceptSome? Grammar.unaryTier
        ⟨signedTokens true n line ++ c.rest, c.reports⟩ =
          .done (some (.negate, minusToken line)) (c.push (n.token line)) := rfl
    have hoperand : Grammar.unary (fuel + 2) ctx (c.push (n.token line)) =
        .done (.literal (.number n.double) line) c := unary_numeral (by omega) hc n line
    rw [Grammar.unary]
    simp only [Rule.bind_apply, hsign, hoperand, Rule.pure_apply]
    rfl

/-- In front of anything that does not go on an expression. -/
theorem expression_signed (negative : Bool) (n : Numeral) (line : ℕ) (hc : c.LoosensBelow 0)
    {fuel : ℕ} (hfuel : 11 ≤ fuel) :
    Grammar.expression fuel ctx ⟨signedTokens negative n line ++ c.rest, c.reports⟩ =
      .done (signedExpr negative n line) c := by
  obtain ⟨fuel, rfl⟩ := Nat.exists_eq_add_of_le' hfuel
  have htiers : ∀ tier ∈ Grammar.tiers, Grammar.acceptSome? tier c = .done none c := by
    intro tier ht
    obtain ⟨k, hk, rfl⟩ := List.getElem_of_mem ht
    exact Grammar.acceptSome?_tier_none hk (hc.mono (Nat.zero_le _))
  have hunary (fuel : ℕ) (hfuel : 3 ≤ fuel) :
      Grammar.unary fuel ctx ⟨signedTokens negative n line ++ c.rest, c.reports⟩ =
        .done (signedExpr negative n line) c :=
    unary_signed negative n line (hc.mono (Nat.zero_le _)) hfuel
  have hoperators := operators_of_unary hunary Grammar.tiers htiers (fuel + 10)
    (Nat.le_add_left _ _)
  have hequal := Grammar.accept?_of_not_sees (hc.not_sees .equal rfl (Nat.le_refl 0))
  rw [Grammar.expression]
  simp only [Rule.bind_apply, hoperators, hequal, Rule.pure_apply]

theorem evaluate_signed (negative : Bool) (n : Numeral) (line : ℕ) (m : Machine) {fuel : ℕ}
    (hfuel : 2 ≤ fuel) :
    evaluate fuel (signedExpr negative n line) m = .done (.number (signedDouble negative n)) m := by
  obtain ⟨fuel, rfl⟩ := Nat.exists_eq_add_of_le' hfuel
  cases negative <;> rfl

end

/-! A whole source. -/

theorem compile_signed (negative : Bool) (n : Numeral) :
    compile (String.ofList (signedText negative n) ++ ";") =
      .ok [.expression (signedExpr negative n 1) 1] := by
  have hitems : Item.scan (String.ofList (signedText negative n) ++ ";") =
      (signedTokens negative n 1).map .token ++
        [.token ⟨.semicolon, ";", .nil, 1⟩, .token ⟨.eof, "", .nil, 1⟩] := by
    have hsource : (String.ofList (signedText negative n) ++ ";").toList =
        signedText negative n ++ [';'] := by
      simp
    have hend : EndsNumber [';'] := by
      rintro _ ⟨⟩
      decide
    have hsemicolon : Segment.all [';'] = [⟨[';'], .token .semicolon .nil⟩] := by
      rw [Segment.all, Segment.all.eq_def]
      rfl
    rw [Item.scan, hsource, ofSegments_signedText negative n 1 hend, hsemicolon]
    rfl
  have htokens : Token.scan (String.ofList (signedText negative n) ++ ";") =
      signedTokens negative n 1 ++ [⟨.semicolon, ";", .nil, 1⟩, ⟨.eof, "", .nil, 1⟩] := by
    rw [Token.scan, hitems]
    cases negative <;> rfl
  have hfaults : Diagnostic.scan (String.ofList (signedText negative n) ++ ";") = [] := by
    rw [Diagnostic.scan, hitems]
    cases negative <;> rfl
  rw [compile]
  simp only [hfaults, htokens]
  cases negative <;> rfl

/-- What `print` shows of a finite number is a number token, behind a minus token if it starts with
a minus sign, wherever it stands in a source without more of a number behind it. These tokens are
an expression, wherever nothing goes on the expression behind them; it has the value of the number
on every machine, and the text with a semicolon is a program that evaluates it. -/
theorem printed_reads_back {x : Float} (hnan : x.isNaN = false) (hinf : x.isInf = false) :
    ∃ (negative : Bool) (n : Numeral),
      (∀ h : Heap, (Value.number x).text h = String.ofList (signedText negative n)) ∧
      (negative = true ↔ (signedText negative n).head? = some '-') ∧
      (∀ (line : ℕ) (behind : List Char), EndsNumber behind →
        Item.ofSegments line (Segment.all (signedText negative n ++ behind)) =
          (signedTokens negative n line).map .token ++
            Item.ofSegments line (Segment.all behind)) ∧
      (∀ (line fuel : ℕ) (ctx : Context) (c : Cursor), 11 ≤ fuel → c.LoosensBelow 0 →
        Grammar.expression fuel ctx ⟨signedTokens negative n line ++ c.rest, c.reports⟩ =
          .done (signedExpr negative n line) c) ∧
      compile (String.ofList (signedText negative n) ++ ";") =
        .ok [.expression (signedExpr negative n 1) 1] ∧
      ∃ y, (y == x) = true ∧ ∀ (line fuel : ℕ) (m : Machine), 2 ≤ fuel →
        evaluate fuel (signedExpr negative n line) m = .done (.number y) m := by
  obtain ⟨negative, n, htext, hvalue, -⟩ := readable_printed.read_write hnan hinf
  exact ⟨negative, n, fun _ => htext, signedText_head negative n,
    fun line behind hend => ofSegments_signedText negative n line hend,
    fun line fuel ctx c hfuel hc => expression_signed negative n line hc hfuel,
    compile_signed negative n, signedDouble negative n, hvalue,
    fun line fuel m hfuel => evaluate_signed negative n line m hfuel⟩

/-- A tenth is no double, but what is nearest to it is shown as one. -/
theorem printed_reads_back_tenth :
    ((-0.1 : Float).isNaN = false ∧ (-0.1 : Float).isInf = false) ∧
      ∃ (e : Expr) (y : Float), compile "-0.1;" = .ok [.expression e 1] ∧ (y == -0.1) = true ∧
        ∀ m : Machine, evaluate 2 e m = .done (.number y) m := by
  have hnan : (-0.1 : Float).isNaN = false := by decide +kernel
  have hinf : (-0.1 : Float).isInf = false := by decide +kernel
  have hshown : (Value.number (-0.1)).text .empty = "-0.1" := by decide +kernel
  obtain ⟨negative, n, htext, -, -, -, hcompile, y, hy, hvalue⟩ := printed_reads_back hnan hinf
  rw [← htext .empty, hshown] at hcompile
  exact ⟨⟨hnan, hinf⟩, signedExpr negative n 1, y, hcompile, hy, fun m => hvalue 1 2 m le_rfl⟩

end Lox.Number
