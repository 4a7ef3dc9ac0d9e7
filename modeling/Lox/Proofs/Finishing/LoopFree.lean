import Lox.Proofs.Compile

/-! Programs without loops: a source without the keywords of loops compiles to one. -/
namespace Lox

mutual
def Stmt.LoopFree : Stmt → Prop
  | .expression _ _ => True
  | .print _ _ => True
  | .var _ => True
  | .function decl => functionLoopFree decl
  | .classDecl _ methods _ => methodsLoopFree methods
  | .block statements _ => statementsLoopFree statements
  | .ifThen _ thenBranch _ => thenBranch.LoopFree
  | .ifElse _ thenBranch elseBranch _ => thenBranch.LoopFree ∧ elseBranch.LoopFree
  | .whileLoop _ _ _ => False
  | .forLoop _ _ _ _ _ => False
  | .loopExit _ _ => True
  | .returns _ _ => True

def statementsLoopFree : List Stmt → Prop
  | [] => True
  | s :: rest => s.LoopFree ∧ statementsLoopFree rest

def functionLoopFree : FunDecl Stmt → Prop
  | ⟨_, _, body, _, _⟩ => statementsLoopFree body

def methodsLoopFree : List (FunDecl Stmt) → Prop
  | [] => True
  | d :: rest => functionLoopFree d ∧ methodsLoopFree rest
end

theorem methodsLoopFree_iff {methods : List (FunDecl Stmt)} :
    methodsLoopFree methods ↔ ∀ d ∈ methods, functionLoopFree d := by
  induction methods with
  | nil => simp [methodsLoopFree]
  | cons d rest ih => simp [methodsLoopFree, ih]

def Kind.startsLoop (kind : Kind) : Bool := kind = .kwWhile || kind = .kwFor

/-- No keyword of a loop is among the tokens. -/
def Source.LoopFree (source : String) : Prop :=
  ∀ t ∈ Token.scan source, t.kind.startsLoop = false

theorem Source.loopFree_of_all {source : String}
    (h : (Token.scan source).all (!·.kind.startsLoop)) : Source.LoopFree source := by
  simpa [Source.LoopFree] using h

/-! Loops have keywords in every spelling. -/

mutual
theorem Stmt.loopFree_of_spelledAs {w : List Symbol}
    (hw : ∀ a ∈ w, a.kind.startsLoop = false) : (s : Stmt) → s.SpelledAs w → s.LoopFree
  | .expression _ _, _ => trivial
  | .print _ _, _ => trivial
  | .var _, _ => trivial
  | .function decl, ⟨v, hv, h⟩ =>
    functionLoopFree_of_spelledAs (fun a ha => hw a (by simp [h, ha])) decl hv
  | .classDecl _ methods _, ⟨v, hv, h⟩ =>
    methodsLoopFree_of_spelledAs (fun a ha => hw a (by simp [h, ha])) methods hv
  | .block statements _, ⟨v, hv, h⟩ =>
    statementsLoopFree_of_spelledAs (fun a ha => hw a (by simp [h, ha])) statements hv
  | .ifThen _ thenBranch _, ⟨v, hv, h⟩ =>
    thenBranch.loopFree_of_spelledAs (fun a ha => hw a (by simp [h, ha])) hv
  | .ifElse _ thenBranch elseBranch _, ⟨u, v, hu, hv, h⟩ =>
    ⟨thenBranch.loopFree_of_spelledAs (fun a ha => hw a (by simp [h, ha])) hu,
      elseBranch.loopFree_of_spelledAs (fun a ha => hw a (by simp [h, ha])) hv⟩
  | .whileLoop _ _ _, ⟨_, _, h⟩ =>
    absurd (hw (.mark .kwWhile) (by simp [h])) (by decide)
  | .forLoop _ _ _ _ _, ⟨_, _, h⟩ =>
    absurd (hw (.mark .kwFor) (by simp [h])) (by decide)
  | .loopExit _ _, _ => trivial
  | .returns _ _, _ => trivial

theorem statementsLoopFree_of_spelledAs {w : List Symbol}
    (hw : ∀ a ∈ w, a.kind.startsLoop = false) :
    (statements : List Stmt) → statementsSpelledAs statements w → statementsLoopFree statements
  | [], _ => trivial
  | s :: rest, ⟨u, v, hu, hv, h⟩ =>
    ⟨s.loopFree_of_spelledAs (fun a ha => hw a (by simp [h, ha])) hu,
      statementsLoopFree_of_spelledAs (fun a ha => hw a (by simp [h, ha])) rest hv⟩

theorem functionLoopFree_of_spelledAs {w : List Symbol}
    (hw : ∀ a ∈ w, a.kind.startsLoop = false) :
    (decl : FunDecl Stmt) → functionSpelledAs decl w → functionLoopFree decl
  | ⟨_, _, body, _, _⟩, ⟨v, hv, h⟩ =>
    statementsLoopFree_of_spelledAs (fun a ha => hw a (by simp [h, ha])) body hv

theorem methodsLoopFree_of_spelledAs {w : List Symbol}
    (hw : ∀ a ∈ w, a.kind.startsLoop = false) :
    (methods : List (FunDecl Stmt)) → methodsSpelledAs methods w → methodsLoopFree methods
  | [], _ => trivial
  | d :: rest, ⟨u, v, hu, hv, h⟩ => by
    have hmem : ∀ a ∈ u ++ v, a ∈ w := by
      rcases h with rfl | rfl
      · exact fun _ => id
      · exact fun _ => List.mem_cons_of_mem _
    exact ⟨functionLoopFree_of_spelledAs
        (fun a ha => hw a (hmem a (List.mem_append_left _ ha))) d hu,
      methodsLoopFree_of_spelledAs
        (fun a ha => hw a (hmem a (List.mem_append_right _ ha))) rest hv⟩
end

/-! The walk of the scopes changes depths and nothing else. -/

mutual
theorem Stmt.locate_loopFree (t : Scoping) : (s : Stmt) → s.LoopFree → (s.locate t).1.LoopFree
  | .expression _ _, _ => trivial
  | .print _ _, _ => trivial
  | .var _, _ => trivial
  | .function decl, h => by
    rw [Stmt.locate]
    split
    · exact h
    · exact locateFunction_loopFree _ decl h
  | .classDecl _ methods _, h => by
    rw [Stmt.locate]
    split
    · exact h
    · exact locateMethods_loopFree _ methods h
  | .block statements _, h => locateStatements_loopFree _ statements h
  | .ifThen _ thenBranch _, h => thenBranch.locate_loopFree _ h
  | .ifElse _ thenBranch elseBranch _, h =>
    ⟨thenBranch.locate_loopFree _ h.1, elseBranch.locate_loopFree _ h.2⟩
  | .whileLoop _ _ _, h => h.elim
  | .forLoop _ _ _ _ _, h => h.elim
  | .loopExit _ _, _ => trivial
  | .returns _ _, _ => trivial

theorem locateStatements_loopFree (t : Scoping) : (statements : List Stmt) →
    statementsLoopFree statements → statementsLoopFree (locateStatements statements t).1
  | [], _ => trivial
  | s :: rest, h => ⟨s.locate_loopFree t h.1, locateStatements_loopFree _ rest h.2⟩

theorem locateFunction_loopFree (t : Scoping) : (decl : FunDecl Stmt) →
    functionLoopFree decl → functionLoopFree (locateFunction decl t).1
  | ⟨_, _, body, _, _⟩, h => locateStatements_loopFree _ body h

theorem locateMethods_loopFree (t : Scoping) : (methods : List (FunDecl Stmt)) →
    methodsLoopFree methods → methodsLoopFree (locateMethods methods t).1
  | [], _ => trivial
  | d :: rest, h => ⟨locateFunction_loopFree t d h.1, locateMethods_loopFree _ rest h.2⟩
end

theorem compile_loopFree {source : String} {program : List Stmt} (hs : Source.LoopFree source)
    (h : compile source = .ok program) : statementsLoopFree program := by
  obtain ⟨statements, used, hl, -, hspell, hmem⟩ := compile_spelled h
  have hstatements : statementsLoopFree statements := by
    refine statementsLoopFree_of_spelledAs (fun a ha => ?_) statements hspell
    obtain ⟨t, ht, rfl⟩ := List.mem_map.1 ha
    exact hs t (hmem t ht)
  have hlocated := locateStatements_loopFree .start statements hstatements
  rw [locateProgram, Prod.mk.injEq] at hl
  rwa [hl.1] at hlocated

end Lox
