import Lox.Proofs.Compile
import Lox.Proofs.Number.Quotient
import Lox.Proofs.Token.Munch
import Lox.Proofs.Tree.Statements

/-! The text of a plain program is the text of no other program. -/
namespace Lox

/-- A number literal is a decimal, so it is no NaN. -/
theorem Lexeme.isNaN_eq {text : List Char} {kind : Kind} {x : Float}
    (h : Lexeme text (.token kind (.number x))) : x.isNaN = false := by
  generalize hcontent : Content.token kind (.number x) = content at h
  cases h with
  | whole | fraction =>
    cases hcontent
    exact Number.isNaN_ofScientific _ _
  | @keyword entry =>
    injection hcontent with _ hnumber
    unfold Segment.wordLiteral at hnumber
    split at hnumber <;> cases hnumber
  | _ => cases hcontent

theorem Token.symbol_legible {source : String} {t : Token} (ht : t ∈ Token.scan source) :
    t.symbol.Legible where
  name hkind := by
    change t.kind = .identifier at hkind
    obtain h | ⟨-, heof, -⟩ := Token.scan_lexeme ht
    · refine ⟨t.literal, ?_⟩
      simpa only [Token.symbol, hkind, if_true] using h
    · rw [hkind] at heof
      cases heof
  number x hx := by
    simp only [Token.symbol] at hx
    split at hx
    · obtain h | ⟨-, -, hnil⟩ := Token.scan_lexeme ht
      · rw [hx] at h
        exact h.isNaN_eq
      · rw [hnil] at hx
        cases hx
    · cases hx

/-- What is read without a fault can be read from its forms. -/
theorem parsed_form_shows {source : String} {s : List Stmt}
    (hs : Grammar.parse (Token.scan source) = ⟨s, []⟩) (hplain : statementsPlain s) :
    FormsShow statements? (statementForms s) (statementsWithoutLines s) := by
  have hread := parsed_spelled (congrArg Grammar.Parsed.diagnostics hs)
  rw [hs] at hread
  obtain ⟨hgood, used, hspell, hmem⟩ := hread
  refine statements_form_shows (fun a ha => ?_) s hgood hspell hplain
  obtain ⟨t, ht, rfl⟩ := List.mem_map.1 ha
  exact Token.symbol_legible (hmem t ht)

/-- Programs that are read from sources without a fault, and that have no string literals, no
infinite numbers and no variable named like an absent clause, are equal but for their lines if they
are printed alike. -/
theorem programText_determines {source source' : String} {s t : List Stmt}
    (hs : Grammar.parse (Token.scan source) = ⟨s, []⟩)
    (ht : Grammar.parse (Token.scan source') = ⟨t, []⟩) (hplain : statementsPlain s)
    (hplain' : statementsPlain t) (h : programText s = programText t) :
    statementsWithoutLines s = statementsWithoutLines t := by
  have hshow := parsed_form_shows hs hplain
  have hshow' := parsed_form_shows ht hplain'
  rw [programText_eq, programText_eq] at h
  have hforms : statementForms s = statementForms t := lines_inj hshow.proper hshow'.proper h
  have hreads := hshow.reads
  rw [hforms] at hreads
  exact Option.some.inj (hreads.symm.trans hshow'.reads)

namespace Reindented

def program (loopLine returnLine : Nat) : List Stmt :=
  [.function ⟨"f", ["a"], [.forLoop .nothing none none
    (.returns (some (.unary .negate (.read ⟨"a", .global⟩ returnLine) returnLine)) returnLine)
      loopLine], 1, 0⟩]

/-- On one line and on several. -/
theorem program_determined :
    (Grammar.parse (Token.scan "fun f(a) \x7b for (;;) return -a; \x7d") = ⟨program 1 1, []⟩ ∧
      Grammar.parse (Token.scan "fun f(a) \x7b\nfor (;;)\nreturn -a;\n\x7d") = ⟨program 2 3, []⟩) ∧
    programText (program 1 1) = programText (program 2 3) ∧
    statementsWithoutLines (program 1 1) = statementsWithoutLines (program 2 3) := by
  have hs : Grammar.parse (Token.scan "fun f(a) \x7b for (;;) return -a; \x7d") =
      ⟨program 1 1, []⟩ := by cbv
  have ht : Grammar.parse (Token.scan "fun f(a) \x7b\nfor (;;)\nreturn -a;\n\x7d") =
      ⟨program 2 3, []⟩ := by cbv
  have hplain (n m : Nat) : statementsPlain (program n m) := by
    have hname : "a" ≠ absentClause := by decide
    exact ⟨⟨⟨trivial, trivial, trivial, hname⟩, trivial⟩, trivial⟩
  have htext : programText (program 1 1) = programText (program 2 3) := rfl
  exact ⟨⟨hs, ht⟩, htext, programText_determines hs ht (hplain 1 1) (hplain 2 3) htext⟩

end Reindented

end Lox
