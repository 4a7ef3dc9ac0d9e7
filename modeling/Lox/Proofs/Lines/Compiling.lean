import Lox.Proofs.Compile
import Lox.Proofs.Lines.Programs
import Lox.Proofs.Lines.Scanning
import Lox.Proofs.Scope.Apart

/-! Two sources that compile, one behind the other, compile to the programs one behind the other. -/
namespace Lox

open Grammar (Cursor)

/-- No program begins with `else`, so what is behind an `if` without `else` does not change it. -/
theorem Token.scan_head {source : String}
    (hq : (Grammar.parse (Token.scan source)).diagnostics = []) :
    ∀ t ∈ (Token.scan source).head?, t.kind ≠ .kwElse := by
  obtain ⟨last, hend, hlast, used, -, hr, -, hspell, hgood⟩ :=
    Grammar.program_reads (Grammar.program_eq_parse (Token.scan source)) hq
  have hr : Token.scan source = used ++ last.rest := hr
  have hspell := hspell fun t ht =>
    (Token.scan_sincere (hr ▸ List.mem_append_left _ ht : t ∈ Token.scan source)).1
  have hbehind : last.sees .kwElse = false := by
    revert hend
    unfold Cursor.atEnd Cursor.sees
    split <;> simp_all
  have hsees := Grammar.sees_else_of_statements (hgood hlast).2 hspell
    (Cursor.Offers.of_tokens used last) hbehind
  rw [← hr] at hsees
  intro t ht hk
  obtain ⟨rest, htokens⟩ := List.head?_eq_some_iff.1 ht
  rw [htokens] at hsees
  simp [Cursor.sees, hk] at hsees

/-- The line on which the second of two sources begins is the first behind the first one. -/
theorem compile_append {first second : String} {p q : List Stmt} (h : compile first = .ok p)
    (h' : compile second = .ok q) : compile (first ++ "\n" ++ second) =
      .ok (p ++ statementsRelined (· + (newlines first.toList + 1)) q) := by
  let shift (line : Nat) : Nat := line + (newlines first.toList + 1)
  obtain ⟨hlexical, hparsed, hlocated⟩ := compile_eq_ok.1 h
  obtain ⟨hlexical', hparsed', hlocated'⟩ := compile_eq_ok.1 h'
  obtain ⟨tokens, e, hscan, he, htokens, hjoined, hfaults⟩ := Token.scan_append hlexical second
  obtain ⟨tokens', e', hscan', he', htokens', -⟩ := Token.scan_append hlexical' ""
  have helse : ∀ t ∈ tokens'.head?, t.kind ≠ .kwElse := fun t ht =>
    Token.scan_head hparsed' t (by
      rw [hscan', List.head?_append_of_ne_nil _ (by rintro rfl; cases ht)]
      exact ht)
  have hparse : Grammar.parse (Token.scan (first ++ "\n" ++ second)) =
      ⟨(Grammar.parse (Token.scan first)).statements ++
        statementsRelined shift (Grammar.parse (Token.scan second)).statements, []⟩ := by
    rw [hjoined, hscan, hscan']
    exact Grammar.parse_append he he' htokens htokens' helse (hscan ▸ hparsed) (hscan' ▸ hparsed')
      shift
  have hbehind : locateProgram
      (statementsRelined shift (Grammar.parse (Token.scan second)).statements) =
        (statementsRelined shift q, []) := by
    rw [locateProgram_relined, hlocated']
    rfl
  refine compile_eq_ok.2 ⟨?_, congrArg Grammar.Parsed.diagnostics hparse, ?_⟩
  · rw [hfaults, hlexical']
    rfl
  · rw [hparse]
    exact locateProgram_append hlocated hbehind

end Lox
