import Lox.Proofs.Scope.Placing
import Lox.Proofs.Scope.Uses

/-! What the walk of the scopes accepts: no scope is given a name twice, and no local name is used
in its own initializer. -/
namespace Lox

open Grammar (Context)

@[simp] theorem Visible.takes_take {vis : Visible} {name : String} :
    Visible.Takes (vis.take 1) name ↔ vis.Takes name := by
  cases vis <;> rfl

/-! Expressions. -/

/-- The expression may initialize a local name. -/
def Expr.Avoids (name : String) (e : Expr) : Prop := (e.locate [[(name, false)]]).2 = none

theorem Scope.AllShow.fault?_none {scopes : List Scope} {vis : Visible}
    (h : Scope.AllShow scopes vis) (o : Occurrence) (line : Nat) : o.fault? scopes line = none := by
  cases h with
  | nil => rfl
  | cons hs _ => simp [Occurrence.fault?, hs.not_pending]

theorem Scope.AllShow.locate_none {scopes : List Scope} {vis : Visible}
    (h : Scope.AllShow scopes vis) (e : Expr) : (e.locate scopes).2 = none := by
  rw [Option.eq_none_iff_forall_ne_some]
  intro d hd
  obtain ⟨o, line, hf⟩ := e.locate_fault hd
  rw [h.fault?_none o line] at hf
  cases hf

/-! Statements. -/

/-- A variable that may stand where `here` is the innermost scope, or where no scope is open. -/
def VarDecl.WellScoped (here : Visible) (decl : VarDecl) : Prop :=
  here.Takes decl.name ∧ (here ≠ [] → ∀ e ∈ decl.initializer, e.Avoids decl.name)

/-- The clause of a loop is walked in a scope of its own if it declares a name. -/
def ForInit.WellScoped : ForInit → Prop
  | declare decl => decl.WellScoped [[]]
  | _ => True

mutual
/-- The walk of the scopes accepts the statement. Of the open scopes only the innermost counts:
`here` is that scope alone, or nothing at top level. -/
def Stmt.WellScoped (here : Visible) : Stmt → Prop
  | .var decl => decl.WellScoped here
  | .function decl => here.Takes decl.name ∧ functionWellScoped decl
  | .classDecl name methods _ => here.Takes name ∧ methodsWellScoped methods
  | .block statements _ => statementsWellScoped [[]] statements
  | .ifThen _ thenBranch _ => thenBranch.WellScoped here
  | .ifElse _ thenBranch elseBranch _ => thenBranch.WellScoped here ∧ elseBranch.WellScoped here
  | .whileLoop _ body _ => body.WellScoped here
  | .forLoop init _ _ body _ => init.WellScoped ∧ body.WellScoped ((init.extend here).take 1)
  | .expression _ _ | .print _ _ | .loopExit _ _ | .returns _ _ => True

def statementsWellScoped (here : Visible) : List Stmt → Prop
  | [] => True
  | s :: rest => s.WellScoped here ∧ statementsWellScoped (s.extend here) rest

def functionWellScoped : FunDecl Stmt → Prop
  | ⟨_, params, body, _, _⟩ => params.Nodup ∧ statementsWellScoped [params] body

def methodsWellScoped : List (FunDecl Stmt) → Prop
  | [] => True
  | d :: rest => functionWellScoped d ∧ methodsWellScoped rest
end

namespace Scoping

/-- The open scopes show these names, and nothing has been reported. -/
structure Quiet (s : Scoping) (vis : Visible) : Prop where
  reports : s.reports = []
  shows : Scope.AllShow s.scopes vis

/-- A walk that has come to `s` found no fault if `ok` holds, and found one otherwise. -/
inductive Judges (ok : Prop) (s : Scoping) (vis : Visible) : Prop where
  | accepts : ok → s.Quiet vis → Judges ok s vis
  | rejects : ¬ ok → s.reports ≠ [] → Judges ok s vis

variable {ok ok' : Prop} {s t : Scoping} {vis vis' : Visible}

theorem Judges.reports_iff (h : s.Judges ok vis) : s.reports = [] ↔ ok := by
  cases h with
  | accepts h hq => exact iff_of_true hq.reports h
  | rejects h hr => exact iff_of_false hr h

theorem Judges.imp (h : s.Judges ok vis) (hok : ok ↔ ok') (hv : s.Quiet vis → s.Quiet vis') :
    s.Judges ok' vis' := by
  cases h with
  | accepts h hq => exact .accepts (hok.1 h) (hv hq)
  | rejects h hr => exact .rejects (fun h' => h (hok.2 h')) hr

theorem Judges.quiet (h : s.Judges ok vis) (hq : s.reports = []) : s.Quiet vis := by
  cases h with
  | accepts _ h => exact h
  | rejects _ h => exact absurd hq h

/-- A walk goes on. -/
theorem Judges.and (h : s.Judges ok vis) (hadds : s.Adds t)
    (hnext : s.Quiet vis → t.Judges ok' vis') : t.Judges (ok ∧ ok') vis' := by
  cases h with
  | accepts h hq =>
    cases hnext hq with
    | accepts h' hq' => exact .accepts ⟨h, h'⟩ hq'
    | rejects h' hr => exact .rejects (fun hand => h' hand.2) hr
  | rejects h hr => exact .rejects (fun hand => h hand.1) fun ht => hr (hadds.nil ht)

/-- The end of a scope. -/
theorem Quiet.leave (h : s.Quiet vis) (hv : vis.tail = vis') : s.leave.Quiet vis' :=
  ⟨h.reports, hv ▸ leave_allShow h.shows⟩

theorem Judges.leave (h : s.Judges ok vis) (hv : vis.tail = vis') : s.leave.Judges ok vis' := by
  cases h with
  | accepts h hq => exact .accepts h (hq.leave hv)
  | rejects h hr => exact .rejects h hr

theorem Quiet.enter (h : s.Quiet vis) {scope : Scope} {names : List String}
    (hs : Scope.Shows scope names) : (s.enter scope).Quiet (names :: vis) :=
  ⟨h.reports, .cons hs h.shows⟩

theorem Quiet.record (h : s.Quiet vis) (name : String) :
    (s.record name true).Quiet (vis.declare name) :=
  ⟨by rw [record_reports, h.reports], record_allShow h.shows name⟩

theorem Quiet.locate (h : s.Quiet vis) (e : Expr) : (s.locate e).2 = s := by
  simp only [Scoping.locate, h.shows.locate_none]

theorem Quiet.locate? (h : s.Quiet vis) (e? : Option Expr) : (s.locate? e?).2 = s := by
  cases e? with
  | none => rfl
  | some e => exact h.locate e

theorem isTaken_iff (h : Scope.AllShow s.scopes vis) {name : String} :
    s.isTaken name = false ↔ vis.Takes name := by
  refine ⟨takes_of_not_taken h, fun htakes => ?_⟩
  rcases s with ⟨scopes, reports⟩
  cases h with
  | nil => rfl
  | cons hs _ => simp [isTaken, Scope.declares, hs name, htakes _ rfl]

/-- In the initializer of a local name nothing else is pending. -/
theorem fault?_pending (h : Scope.AllShow s.scopes vis) (hv : vis ≠ []) (name : String)
    (o : Occurrence) (line : Nat) :
    o.fault? (s.record name false).scopes line = o.fault? [[(name, false)]] line := by
  rcases s with ⟨scopes, reports⟩
  cases h with
  | nil => exact absurd rfl hv
  | cons hs _ =>
    by_cases hn : o.name = name
    · simp [Scoping.record, Occurrence.fault?, Scope.isPending, hn]
    · have hne : (o.name == name) = false := by simpa using hn
      have hp := hs.not_pending o.name
      simp only [Scope.isPending] at hp
      simp [Scoping.record, Occurrence.fault?, Scope.isPending, List.lookup_cons, hne, hp]

theorem initializer_fault (h : Scope.AllShow s.scopes vis) (name : String) (e : Expr) :
    (e.locate (s.record name false).scopes).2 = none ↔ (vis ≠ [] → e.Avoids name) := by
  by_cases hv : vis = []
  · subst hv
    have hs : (s.record name false).scopes = s.scopes := by
      rcases s with ⟨scopes, reports⟩
      cases h
      rfl
    rw [hs, h.locate_none]
    simp
  · rw [e.locate_fault_congr (fault?_pending h hv name)]
    simp [hv, Expr.Avoids]

theorem redeclared_reports (s : Scoping) (name : String) (line : Nat) :
    (s.redeclared name line).reports ≠ [] := by
  simp [redeclared, report]

/-- A declaration is walked if the innermost scope lacks its name. -/
theorem Quiet.declaration {α : Type} {a : α} {r : α × Scoping} {name : String} {line : Nat}
    (h : s.Quiet vis) (hr : r.2.Judges ok vis') :
    (if s.isTaken name then (a, s.redeclared name line) else r).2.Judges
      (Visible.Takes (vis.take 1) name ∧ ok) vis' := by
  have htakes : s.isTaken name = false ↔ Visible.Takes (vis.take 1) name :=
    (isTaken_iff h.shows).trans Visible.takes_take.symm
  by_cases ht : s.isTaken name
  · rw [if_pos ht]
    refine .rejects (fun hw => ?_) (redeclared_reports _ _ _)
    rw [htakes.2 hw.1] at ht
    cases ht
  · rw [if_neg ht]
    exact hr.imp (iff_and_self.2 fun _ => htakes.1 (by simpa using ht)) id

theorem Quiet.locateVar (h : s.Quiet vis) (decl : VarDecl) :
    (s.locateVar decl).2.Judges (decl.WellScoped (vis.take 1)) (vis.declare decl.name) := by
  have hready : ((s.record decl.name false).record decl.name true).Quiet
      (vis.declare decl.name) :=
    ⟨by simp [h.reports], record_record_allShow h.shows _⟩
  apply h.declaration
  cases hi : decl.initializer with
  | none => exact .accepts (by simp) hready
  | some e =>
    have hinit := initializer_fault h.shows decl.name e
    simp only [Scoping.locate?, Scoping.locate]
    cases hf : (e.locate (s.record decl.name false).scopes).2 with
    | none => exact .accepts (by simpa using hinit.1 hf) hready
    | some d =>
      refine .rejects (fun hw => ?_) (by simp [report])
      have hnone := hinit.2 (by simpa using hw)
      rw [hf] at hnone
      cases hnone

/-- Parameters share a scope with the names that it has already. -/
theorem Quiet.declareParams {names params : List String} (h : s.Quiet (names :: vis))
    (line : Nat) : (s.declareParams line params).Judges
      (params.Nodup ∧ ∀ name ∈ params, name ∉ names) ((params ++ names) :: vis) := by
  induction params generalizing s names with
  | nil => exact .accepts (by simp) h
  | cons name rest ih =>
    rw [Scoping.declareParams]
    by_cases ht : s.isTaken name
    · rw [if_pos ht]
      refine .rejects (fun hw => ?_) fun hr =>
        redeclared_reports _ _ _ ((declareParams_adds _ line rest).nil hr)
      have htakes : Visible.Takes (names :: vis) name := by simpa [Visible.Takes] using hw.2 name
      rw [(isTaken_iff h.shows).2 htakes] at ht
      cases ht
    · have hname : name ∉ names := (isTaken_iff h.shows).1 (by simpa using ht) names rfl
      rw [if_neg ht]
      apply (ih (h.record name)).imp
      · simp only [List.nodup_cons, List.mem_cons, not_or, forall_eq_or_imp]
        grind
      · intro hq
        exact ⟨hq.reports, hq.shows.congr fun other => by simp [or_left_comm]⟩

end Scoping

/-- The names that the statements behind these see. -/
def statementsExtend (vis : Visible) (statements : List Stmt) : Visible :=
  statements.foldl (fun vis s => s.extend vis) vis

theorem statementsExtend_tail (statements : List Stmt) (vis : Visible) :
    (statementsExtend vis statements).tail = vis.tail := by
  induction statements generalizing vis with
  | nil => rfl
  | cons s rest ih => exact (ih (s.extend vis)).trans (s.extend_tail vis)

@[simp] theorem Stmt.extend_take (s : Stmt) (vis : Visible) :
    s.extend (vis.take 1) = (s.extend vis).take 1 := by
  cases s with
  | var | function | classDecl => cases vis <;> rfl
  | _ => rfl

@[simp] theorem ForInit.extend_take (init : ForInit) (vis : Visible) :
    (init.extend (vis.take 1)).take 1 = (init.extend vis).take 1 := by
  cases init with
  | declare => rfl
  | _ => exact List.take_take.trans rfl

/-! Walks. -/

/-- The walk of the initializer or first clause of a loop, in a scope of its own if it needs one. -/
theorem Scoping.Quiet.locateInit {s : Scoping} {vis : Visible} (h : s.Quiet vis)
    (init : ForInit) :
    ((if init.isDeclaration then s.enter [] else s).locateInit init).2.Judges init.WellScoped
      (init.extend vis) := by
  cases init with
  | nothing => exact .accepts trivial h
  | declare decl => exact (h.enter .nil).locateVar decl
  | evaluate e =>
    refine .accepts trivial ?_
    simp only [Scoping.locateInit, ForInit.isDeclaration, Bool.false_eq_true, if_false, h.locate]
    exact h

mutual
theorem Stmt.locate_judges {ctx : Context} {vis : Visible} {s : Scoping} : (stmt : Stmt) →
    stmt.Grammatical ctx → s.Quiet vis →
      (stmt.locate s).2.Judges (stmt.WellScoped (vis.take 1)) (stmt.extend vis)
  | .expression e _, _, h | .print e _, _, h => by
    simp only [Stmt.locate, h.locate]
    exact .accepts trivial h
  | .var decl, _, h => h.locateVar decl
  | .function decl, hg, h => by
    rw [Stmt.locate]
    exact h.declaration (locateFunction_judges decl hg (h.record decl.name))
  | .classDecl name methods line, hg, h => by
    rw [Stmt.locate]
    have hthis : Scope.Shows [("this", true)] ["this"] := .cons .nil fun _ _ => rfl
    have hm := locateMethods_judges methods hg ((h.record name).enter hthis)
    exact h.declaration (hm.leave rfl)
  | .block statements _, hg, h => (locateStatements_judges statements hg (h.enter .nil)).leave
      (by rw [statementsExtend_tail]; rfl)
  | .ifThen condition thenBranch _, ⟨_, hd, ht⟩, h => by
    simp only [Stmt.locate, h.locate]
    have hthen := thenBranch.locate_judges ht h
    rwa [Stmt.extend_of_not_declaration hd] at hthen
  | .ifElse condition thenBranch elseBranch _, ⟨_, ⟨hd, _, ht⟩, hd', he⟩, h => by
    simp only [Stmt.locate, h.locate]
    have hthen := thenBranch.locate_judges ht h
    rw [Stmt.extend_of_not_declaration hd] at hthen
    apply hthen.and (elseBranch.locate_adds _)
    intro hq
    have helse := elseBranch.locate_judges he hq
    rwa [Stmt.extend_of_not_declaration hd'] at helse
  | .whileLoop condition body _, ⟨_, hd, hb⟩, h => by
    simp only [Stmt.locate, h.locate]
    have hbody := body.locate_judges hb h
    rwa [Stmt.extend_of_not_declaration hd] at hbody
  | .forLoop init condition increment body _, ⟨_, hd, hb⟩, h => by
    have hbody {t : Scoping} (hq : t.Quiet (init.extend vis)) :
        (body.locate ((t.locate? condition).2.locate? increment).2).2.Judges
          (body.WellScoped ((init.extend vis).take 1)) (init.extend vis) := by
      have hjudges := body.locate_judges hb hq
      rw [Stmt.extend_of_not_declaration hd] at hjudges
      rwa [hq.locate?, hq.locate?]
    have hwalk := (h.locateInit init).and (((Scoping.locate?_adds _ condition).trans
      (Scoping.locate?_adds _ increment)).trans (body.locate_adds _)) hbody
    simp only [Stmt.locate, Stmt.WellScoped, ForInit.extend_take]
    cases init with
    | declare decl => exact hwalk.leave rfl
    | nothing | evaluate e => exact hwalk
  | .loopExit _ _, _, h => .accepts trivial h
  | .returns value _, _, h => by
    simp only [Stmt.locate, h.locate?]
    exact .accepts trivial h

theorem locateStatements_judges {ctx : Context} {vis : Visible} {s : Scoping} :
    (statements : List Stmt) → statementsGrammatical ctx statements → s.Quiet vis →
      (locateStatements statements s).2.Judges (statementsWellScoped (vis.take 1) statements)
        (statementsExtend vis statements)
  | [], _, h => .accepts trivial h
  | first :: rest, ⟨hf, hg⟩, h => by
    apply (first.locate_judges hf h).and (locateStatements_adds rest _)
    intro hq
    rw [Stmt.extend_take]
    exact locateStatements_judges rest hg hq

theorem locateFunction_judges {ctx : Context} {vis : Visible} {s : Scoping} :
    (decl : FunDecl Stmt) → functionGrammatical ctx decl → s.Quiet vis →
      (locateFunction decl s).2.Judges (functionWellScoped decl) vis
  | ⟨_, params, body, line, _⟩, ⟨_, hb, _⟩, h => by
    have hparams :
        ((s.enter []).declareParams line params).Judges params.Nodup (params :: vis) :=
      ((h.enter .nil).declareParams line).imp (by simp) fun hq => by simpa using hq
    have hwalk := hparams.and (locateStatements_adds body _) (locateStatements_judges body hb)
    exact hwalk.leave (by rw [statementsExtend_tail]; rfl)

theorem locateMethods_judges {ctx : Context} {vis : Visible} {s : Scoping} :
    (methods : List (FunDecl Stmt)) → methodsGrammatical ctx methods → s.Quiet vis →
      (locateMethods methods s).2.Judges (methodsWellScoped methods) vis
  | [], _, h => .accepts trivial h
  | d :: rest, ⟨hd, hg⟩, h => by
    apply (locateFunction_judges d hd h).and (locateMethods_adds rest _)
    intro hq
    exact locateMethods_judges rest hg hq
end

/-- The walk of a program that the grammar has finds a fault exactly if it is not well scoped. -/
theorem locateProgram_quiet_iff {program : List Stmt} (hg : statementsGrammatical .top program) :
    (locateProgram program).2 = [] ↔ statementsWellScoped [] program :=
  have hq : Scoping.start.Quiet [] := ⟨rfl, .nil⟩
  (locateStatements_judges program hg hq).reports_iff

/-! Statements without declarations of their own. -/

namespace Stmt

/-- The statement declares no name that the statements behind it would see. -/
def DeclaresNothing : Stmt → Prop
  | var _ | function _ | classDecl _ _ _ => False
  | ifThen _ thenBranch _ => thenBranch.DeclaresNothing
  | ifElse _ thenBranch elseBranch _ => thenBranch.DeclaresNothing ∧ elseBranch.DeclaresNothing
  | whileLoop _ body _ | forLoop _ _ _ body _ => body.DeclaresNothing
  | _ => True

theorem Grammatical.declaresNothing : {s : Stmt} → {ctx : Context} → s.Grammatical ctx →
    s.isDeclaration = false → s.DeclaresNothing
  | .ifThen _ _ _, _, ⟨_, hd, ht⟩, _ => ht.declaresNothing hd
  | .ifElse _ _ _ _, _, ⟨_, ⟨hd, _, ht⟩, hd', he⟩, _ =>
    ⟨ht.declaresNothing hd, he.declaresNothing hd'⟩
  | .whileLoop _ _ _, _, ⟨_, hd, hb⟩, _ | .forLoop _ _ _ _ _, _, ⟨_, hd, hb⟩, _ =>
    hb.declaresNothing hd
  | .expression _ _, _, _, _ | .print _ _, _, _, _ | .block _ _, _, _, _
  | .loopExit _ _, _, _, _ | .returns _ _, _, _, _ => trivial

/-- No scope around such a statement counts. -/
theorem wellScoped_congr {here here' : Visible} : (s : Stmt) → s.DeclaresNothing →
    s.WellScoped here → s.WellScoped here'
  | .ifThen _ thenBranch _, ht, h => thenBranch.wellScoped_congr ht h
  | .ifElse _ thenBranch elseBranch _, ⟨ht, he⟩, ⟨h, h'⟩ =>
    ⟨thenBranch.wellScoped_congr ht h, elseBranch.wellScoped_congr he h'⟩
  | .whileLoop _ body _, hb, h => body.wellScoped_congr hb h
  | .forLoop _ _ _ body _, hb, ⟨hi, h⟩ => ⟨hi, body.wellScoped_congr hb h⟩
  | .block _ _, _, h => h
  | .expression _ _, _, _ | .print _ _, _, _ | .loopExit _ _, _, _ | .returns _ _, _, _ => trivial

end Stmt

end Lox
