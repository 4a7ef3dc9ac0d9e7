import Lox.Program
import Lox.Proofs.Grammar.Faults
import Lox.Proofs.Grammar.Termination
import Lox.Proofs.Grammar.Soundness
import Lox.Proofs.Scope.Placing
import Lox.Proofs.Token.Scanned

/-! What compiling a source gives: a placed program, or faults of the source. -/
namespace Lox

open Grammar (Context)

theorem thisName_not_mem_symbols {tokens : List Token}
    (h : ∀ t ∈ tokens, t.kind = .identifier → t.lexeme ≠ "this") :
    Symbol.thisName ∉ tokens.map Token.symbol := by
  intro hm
  obtain ⟨t, ht, hs⟩ := List.mem_map.1 hm
  have hk : t.kind = .identifier := congrArg Symbol.kind hs
  have hn : t.lexeme = "this" := by
    simpa [Token.symbol, hk, Symbol.thisName, Symbol.identifier] using congrArg Symbol.name hs
  exact h t ht hk hn

/-- A source compiles if no stage has a fault, to its tree with the depths filled in. -/
theorem compile_eq_ok {source : String} {program : List Stmt} :
    compile source = .ok program ↔ Diagnostic.scan source = [] ∧
      (Grammar.parse (Token.scan source)).diagnostics = [] ∧
        locateProgram (Grammar.parse (Token.scan source)).statements = (program, []) := by
  simp only [compile, Prod.ext_iff]
  cases hlexical : Diagnostic.scan source with
  | cons => simp
  | nil =>
    cases hparsed : (Grammar.parse (Token.scan source)).diagnostics with
    | cons => simp
    | nil =>
      cases hlocated : (locateProgram (Grammar.parse (Token.scan source)).statements).2 with
      | cons => simp
      | nil => simp

theorem compile_of_isOk {source : String} (h : (compile source).isOk) :
    ∃ program, compile source = .ok program := by
  cases hc : compile source with
  | ok program => exact ⟨program, rfl⟩
  | error f =>
    rw [hc] at h
    cases h

/-- What is read without a fault is a tree of the grammar, spelled by tokens of the source. -/
theorem parsed_spelled {source : String}
    (h : (Grammar.parse (Token.scan source)).diagnostics = []) :
    statementsGrammatical .top (Grammar.parse (Token.scan source)).statements ∧
      ∃ used : List Token, statementsSpelledAs (Grammar.parse (Token.scan source)).statements
        (used.map Token.symbol) ∧ ∀ t ∈ used, t ∈ Token.scan source := by
  obtain ⟨last, -, hlast, used, -, hr, -, hspell, hgood⟩ :=
    Grammar.program_reads (Grammar.program_eq_parse (Token.scan source)) h
  have hmem : ∀ t ∈ used, t ∈ Token.scan source := fun t ht => by
    rw [show Token.scan source = used ++ last.rest from hr]
    exact List.mem_append_left _ ht
  exact ⟨(hgood hlast).2, used, hspell fun t ht => (Token.scan_sincere (hmem t ht)).1, hmem⟩

/-- What compiles is a tree of the grammar, spelled by tokens of the source. -/
theorem compile_spelled {source : String} {program : List Stmt}
    (h : compile source = .ok program) : ∃ (statements : List Stmt) (used : List Token),
      locateProgram statements = (program, []) ∧ statementsGrammatical .top statements ∧
        statementsSpelledAs statements (used.map Token.symbol) ∧
          ∀ t ∈ used, t ∈ Token.scan source := by
  obtain ⟨-, hparsed, hlocated⟩ := compile_eq_ok.1 h
  obtain ⟨hgood, used, hspell, hmem⟩ := parsed_spelled hparsed
  exact ⟨_, used, hlocated, hgood, hspell, hmem⟩

/-- Every program that compiles has its names placed. -/
theorem compile_placed {source : String} {program : List Stmt}
    (h : compile source = .ok program) : statementsPlaced .top [] program := by
  obtain ⟨statements, used, hl, hgood, hspell, hmem⟩ := compile_spelled h
  obtain ⟨rfl, hq⟩ := Prod.ext_iff.1 hl
  have hstart : Scoping.start.Around .top [] := ⟨.nil, fun h => by cases h⟩
  exact (statementsPlacedByWalk_all _ hstart hgood hspell
    (thisName_not_mem_symbols fun t ht => (Token.scan_sincere (hmem t ht)).2) hq).1

/-- A fault that a source may have before it runs. -/
def Fault.IsStatic : Fault → Prop
  | .lexical _ | .grammar _ | .scope _ => True
  | _ => False

/-- A source that does not compile has faults of its own to blame. -/
theorem compile_static {source : String} {f : Failure} (h : compile source = .error f) :
    f.stage ≠ .runtime ∧ ∀ d ∈ f.diagnostics, d.fault.IsStatic := by
  simp only [compile] at h
  split at h
  · cases h
    refine ⟨by simp, fun d hd => ?_⟩
    obtain ⟨g, hg⟩ := Diagnostic.scan_lexical hd
    exact hg ▸ trivial
  split at h
  · cases h
    refine ⟨by simp, fun d hd => ?_⟩
    obtain ⟨-, g, hg⟩ :=
      Grammar.parse_honest (fun _ => True) (fun _ _ => trivial) (.inl trivial) d hd
    exact hg ▸ trivial
  split at h
  · cases h
    refine ⟨by simp, fun d hd => ?_⟩
    obtain ⟨more, hm, hscope⟩ :=
      locateStatements_adds (Grammar.parse (Token.scan source)).statements .start
    have hmore : d ∈ Scoping.start.reports ++ more := hm ▸ hd
    obtain ⟨g, hg⟩ := hscope d hmore
    exact hg ▸ trivial
  · cases h

end Lox
