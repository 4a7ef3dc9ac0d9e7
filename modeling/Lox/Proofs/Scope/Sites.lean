import Lox.Proofs.Grammar.Faults
import Lox.Proofs.Scope.Violations

/-! The places of a program where names are used, each with the local scopes around it, and the depths
that the walk of the scopes gives to them. -/
namespace Lox

open Violation

/-- A marked place with the names that each local scope around it, from the inside, has been given
textually before. -/
structure Site extends Mark where
  scopes : Visible

def sitesOf (scopes : Visible) (marks : List Mark) : List Site := marks.map (⟨·, scopes⟩)

/-- In its initializer a variable has been declared. -/
def VarDecl.sites (scopes : Visible) (decl : VarDecl) : List Site :=
  sitesOf (scopes.declareAll [decl.name]) (optionalMarks decl.initializer)

def ForInit.sites (scopes : Visible) : ForInit → List Site
  | nothing => []
  | declare decl => decl.sites ([] :: scopes)
  | evaluate e => sitesOf scopes e.marks

mutual
/-- Functions and classes see their own names. A class has a scope with only `this` around its
methods. -/
def Stmt.sites (scopes : Visible) : Stmt → List Site
  | .expression e _ | .print e _ => sitesOf scopes e.marks
  | .var decl => decl.sites scopes
  | .function decl => functionSites (scopes.declareAll [decl.name]) decl
  | .classDecl name methods _ => methodsSites (["this"] :: scopes.declareAll [name]) methods
  | .block statements _ => statementsSites ([] :: scopes) statements
  | .ifThen condition thenBranch _ => sitesOf scopes condition.marks ++ thenBranch.sites scopes
  | .ifElse condition thenBranch elseBranch _ =>
    sitesOf scopes condition.marks ++ thenBranch.sites scopes ++
      elseBranch.sites (scopes.declareAll thenBranch.declared)
  | .whileLoop condition body _ => sitesOf scopes condition.marks ++ body.sites scopes
  | .forLoop init condition increment body _ =>
    init.sites scopes ++ sitesOf (init.extend scopes) (optionalMarks condition) ++
      sitesOf (init.extend scopes) (optionalMarks increment) ++ body.sites (init.extend scopes)
  | .loopExit _ _ => []
  | .returns value _ => sitesOf scopes (optionalMarks value)

def statementsSites (scopes : Visible) : List Stmt → List Site
  | [] => []
  | s :: rest => s.sites scopes ++ statementsSites (scopes.declareAll s.declared) rest

/-- The parameters of a function share the scope of its body. -/
def functionSites (scopes : Visible) : FunDecl Stmt → List Site
  | ⟨_, params, body, _, _⟩ => statementsSites (params :: scopes) body

def methodsSites (scopes : Visible) : List (FunDecl Stmt) → List Site
  | [] => []
  | d :: rest => functionSites scopes d ++ methodsSites scopes rest
end

/-- The names that a program declares outside of local scopes belong to none. -/
def programSites (program : List Stmt) : List Site := statementsSites [] program

/-! Depths. -/

/-- A name found in a scope gets its distance; any other keeps the depth it has. -/
def Occurrence.placed (vis : Visible) (o : Occurrence) : Occurrence :=
  match vis.distance? o.name with
  | some n => { o with depth := .hops n }
  | none => o

def Mark.placed (vis : Visible) (m : Mark) : Mark :=
  { m with occurrence := m.occurrence.placed vis }

namespace Site

def placed (site : Site) : Site := { site with toMark := site.toMark.placed site.scopes }

/-- The place as it was before it had a depth. -/
def unplaced (site : Site) : Site :=
  { site with occurrence := { site.occurrence with depth := .global } }

end Site

theorem sitesOf_placed (vis : Visible) (marks : List Mark) :
    sitesOf vis (marks.map (Mark.placed vis)) = (sitesOf vis marks).map Site.placed := by
  simp only [sitesOf, List.map_map]
  rfl

/-! Expressions. -/

/-- The open scopes have these names, whether they may be read yet or not. -/
def Scope.AllDeclare (scopes : List Scope) (vis : Visible) : Prop :=
  List.Forall₂ (fun scope names => ∀ name, scope.declares name = decide (name ∈ names)) scopes vis

section
variable {scopes : List Scope} {vis : Visible}

theorem Scope.AllShow.allDeclare (h : Scope.AllShow scopes vis) : Scope.AllDeclare scopes vis := by
  refine List.Forall₂.imp ?_ h
  intro scope names hs name
  by_cases hn : name ∈ names <;> simp [Scope.declares, hs name, hn]

theorem Scope.AllDeclare.distance?_eq (h : Scope.AllDeclare scopes vis) (name : String) :
    Scope.distance? name scopes = vis.distance? name := by
  induction h with
  | nil => rfl
  | @cons scope names scopes vis hs _ ih =>
    rw [Scope.distance?, Visible.distance?_cons, ih, hs name]
    simp only [decide_eq_true_eq]

theorem Scoping.record_allDeclare {s : Scoping} (h : Scope.AllShow s.scopes vis) (name : String)
    (ready : Bool) : Scope.AllDeclare (s.record name ready).scopes (vis.declareAll [name]) := by
  have hall := h.allDeclare
  rw [record_scopes]
  cases hs : s.scopes with
  | nil =>
    rw [hs] at h
    cases h
    exact .nil
  | cons scope outer =>
    rw [hs] at hall
    cases hall with
    | @cons _ names _ vis hnames ho =>
      refine .cons (fun other => ?_) ho
      by_cases hn : other = name
      · simp [Scope.declares, hn]
      · have hne : (other == name) = false := by simpa using hn
        have hother := hnames other
        simp only [Scope.declares] at hother
        simp [Scope.declares, List.lookup_cons, hne, hother, hn]

theorem Occurrence.locate_eq (h : Scope.AllDeclare scopes vis) (o : Occurrence) :
    o.locate scopes = o.placed vis := by
  cases hd : vis.distance? o.name <;>
    simp only [Occurrence.locate, Occurrence.placed, h.distance?_eq, hd]

mutual
/-- Without a fault the walk places every name of an expression. -/
theorem Expr.locate_marks (h : Scope.AllDeclare scopes vis) : (e : Expr) →
    (e.locate scopes).2 = none → (e.locate scopes).1.marks = e.marks.map (Mark.placed vis)
  | .literal _ _, _ => rfl
  | .group inner _, hq | .get inner _ _, hq => inner.locate_marks h hq
  | .unary _ right _, hq => right.locate_marks h hq
  | .binary left _ right _, hq => by
    rw [Expr.locate] at hq ⊢
    split at hq
    next => cases hq
    next hl =>
      simp only [Expr.marks, List.map_append, left.locate_marks h hl, right.locate_marks h hq]
  | .read o line, hq => by
    rw [Expr.locate] at hq ⊢
    split at hq
    next => cases hq
    next => simp only [Expr.marks, Occurrence.locate_eq h, List.map_cons, List.map_nil, Mark.placed]
  | .this o _, _ => by
    simp only [Expr.locate, Expr.marks, Occurrence.locate_eq h, List.map_cons, List.map_nil,
      Mark.placed]
  | .assign target value line, hq => by
    rw [Expr.locate] at hq ⊢
    split at hq
    next => cases hq
    next hv =>
      split at hq
      next => cases hq
      next =>
        simp only [Expr.marks, Occurrence.locate_eq h, List.map_cons, Mark.placed,
          value.locate_marks h hv]
  | .set object _ value _, hq => by
    rw [Expr.locate] at hq ⊢
    split at hq
    next => cases hq
    next hv =>
      simp only [Expr.marks, List.map_append, object.locate_marks h hq, value.locate_marks h hv]
  | .call callee arguments _, hq => by
    rw [Expr.locate] at hq ⊢
    split at hq
    next => cases hq
    next hc =>
      simp only [Expr.marks, List.map_append, callee.locate_marks h hc,
        locateArguments_marks h arguments hq]

theorem locateArguments_marks (h : Scope.AllDeclare scopes vis) : (es : List Expr) →
    (locateArguments scopes es).2 = none →
      argumentMarks (locateArguments scopes es).1 = (argumentMarks es).map (Mark.placed vis)
  | [], _ => rfl
  | e :: rest, hq => by
    rw [locateArguments] at hq ⊢
    split at hq
    next => cases hq
    next he =>
      simp only [argumentMarks, List.map_append, e.locate_marks h he,
        locateArguments_marks h rest hq]
end

end

/-! Walks. -/

namespace Scoping

variable {s : Scoping} {vis : Visible}

theorem locate_sites (h : Scope.AllShow s.scopes vis) (e : Expr) :
    sitesOf vis (s.locate e).1.marks = (sitesOf vis e.marks).map Site.placed := by
  have hnone := h.locate_none e
  have hmarks := e.locate_marks h.allDeclare hnone
  rw [← sitesOf_placed, ← hmarks]
  simp only [locate, hnone]

theorem locate?_sites (h : Scope.AllShow s.scopes vis) (e? : Option Expr) :
    sitesOf vis (optionalMarks (s.locate? e?).1) =
      (sitesOf vis (optionalMarks e?)).map Site.placed := by
  cases e? with
  | none => rfl
  | some e => exact locate_sites h e

/-- A variable that is accepted is not used in its own initializer. -/
theorem locateVar_sites (h : Scope.AllShow s.scopes vis) (decl : VarDecl)
    (hq : reported (decl.violations vis.head?) = []) :
    (s.locateVar decl).1.sites vis = (decl.sites vis).map Site.placed := by
  rw [VarDecl.violations, reported_ofDeclaration_eq_nil, ← isTaken_eq h] at hq
  have hfault := locateInitializer_reports h decl
  rw [hq.2, List.append_nil] at hfault
  rw [locateVar, if_neg (by simp [hq.1])]
  rcases decl with ⟨name, _ | e, line⟩
  · rfl
  · have hnone : (e.locate (s.record name false).scopes).2 = none := by
      simpa [locate?, locate_reports] using hfault
    have hmarks := e.locate_marks (record_allDeclare h name false) hnone
    simp only [VarDecl.sites, locate?, locate, hnone, optionalMarks, hmarks, sitesOf_placed]

theorem locateInit_sites (h : Scope.AllShow s.scopes vis) (init : ForInit)
    (hq : reported init.violations = []) :
    ((if init.isDeclaration then s.enter [] else s).locateInit init).1.sites vis =
      (init.sites vis).map Site.placed := by
  cases init with
  | nothing => rfl
  | declare decl =>
    have hin : Scope.AllShow (s.enter []).scopes ([] :: vis) := .cons .nil h
    exact locateVar_sites hin decl hq
  | evaluate e => exact locate_sites h e

theorem locateInit_extend (s : Scoping) (init : ForInit) (vis : Visible) :
    (s.locateInit init).1.extend vis = init.extend vis := by
  cases init with
  | declare decl =>
    simp only [locateInit, ForInit.extend, locateVar]
    split <;> rfl
  | nothing | evaluate => rfl

end Scoping

open Scoping in
mutual
/-- The walk of an acceptable statement places the names at all of its sites. -/
theorem Stmt.locate_sites {vis : Visible} {s : Scoping} : (stmt : Stmt) →
    Scope.AllShow s.scopes vis → reported (stmt.violations vis.head?) = [] →
      (stmt.locate s).1.sites vis = (stmt.sites vis).map Site.placed
  | .expression e _, h, _ | .print e _, h, _ => Scoping.locate_sites h e
  | .var decl, h, hq => locateVar_sites h decl hq
  | .function decl, h, hq => by
    rw [Stmt.violations, reported_ofDeclaration_eq_nil, ← isTaken_eq h] at hq
    have hin := (record_allShow h decl.name).of_declare
    simp only [Stmt.locate, hq.1, Bool.false_eq_true, if_false, Stmt.sites, locateFunction_name]
    exact locateFunction_sites decl hin hq.2
  | .classDecl name methods line, h, hq => by
    rw [Stmt.violations, reported_ofDeclaration_eq_nil, ← isTaken_eq h] at hq
    have hthis : Scope.Shows [("this", true)] ["this"] := .cons .nil fun _ _ => rfl
    have hin : Scope.AllShow ((s.record name true).enter [("this", true)]).scopes
        (["this"] :: vis.declareAll [name]) := .cons hthis (record_allShow h name).of_declare
    simp only [Stmt.locate, hq.1, Bool.false_eq_true, if_false, Stmt.sites]
    exact locateMethods_sites methods hin hq.2
  | .block statements _, h, hq => by
    have hin : Scope.AllShow (s.enter []).scopes ([] :: vis) := .cons .nil h
    exact locateStatements_sites statements hin hq
  | .ifThen condition thenBranch _, h, hq => by
    simp only [Stmt.locate, Stmt.sites, List.map_append, Scoping.locate_sites h, locate_eq h,
      thenBranch.locate_sites h hq]
  | .ifElse condition thenBranch elseBranch _, h, hq => by
    simp only [Stmt.violations, reported_append, List.append_eq_nil_iff] at hq
    have helse := elseBranch.locate_sites (thenBranch.locate_shows h)
    rw [Visible.declareAll_head?] at helse
    simp only [Stmt.locate, Stmt.sites, List.map_append, Scoping.locate_sites h, locate_eq h,
      thenBranch.locate_sites h hq.1, Stmt.locate_declared, helse hq.2]
  | .whileLoop condition body _, h, hq => by
    simp only [Stmt.locate, Stmt.sites, List.map_append, Scoping.locate_sites h, locate_eq h,
      body.locate_sites h hq]
  | .forLoop init condition increment body _, h, hq => by
    simp only [Stmt.violations, reported_append, List.append_eq_nil_iff] at hq
    have hin := locateInit_shows h init
    have hbody := body.locate_sites hin
    rw [init.extend_head?] at hbody
    simp only [Stmt.locate, Stmt.sites, List.map_append, locateInit_extend,
      locateInit_sites h init hq.1, locate?_sites hin, locate?_eq hin, hbody hq.2]
  | .loopExit _ _, _, _ => rfl
  | .returns value _, h, _ => locate?_sites h value

theorem locateStatements_sites {vis : Visible} {s : Scoping} : (statements : List Stmt) →
    Scope.AllShow s.scopes vis → reported (statementsViolations vis.head? statements) = [] →
      statementsSites vis (locateStatements statements s).1 =
        (statementsSites vis statements).map Site.placed
  | [], _, _ => rfl
  | first :: rest, h, hq => by
    simp only [statementsViolations, reported_append, List.append_eq_nil_iff] at hq
    have hrest := locateStatements_sites rest (first.locate_shows h)
    rw [Visible.declareAll_head?] at hrest
    simp only [locateStatements, statementsSites, List.map_append, first.locate_sites h hq.1,
      Stmt.locate_declared, hrest hq.2]

theorem locateFunction_sites {vis : Visible} {s : Scoping} : (decl : FunDecl Stmt) →
    Scope.AllShow s.scopes vis → reported (functionViolations decl) = [] →
      functionSites vis (locateFunction decl s).1 = (functionSites vis decl).map Site.placed
  | ⟨_, params, body, line, _⟩, h, hq => by
    simp only [functionViolations, reported_append, List.append_eq_nil_iff] at hq
    have hin : Scope.AllShow (s.enter []).scopes ([] :: vis) := .cons .nil h
    exact locateStatements_sites body (declareParams_shows hin line) hq.2

theorem locateMethods_sites {vis : Visible} {s : Scoping} : (methods : List (FunDecl Stmt)) →
    Scope.AllShow s.scopes vis → reported (methodsViolations methods) = [] →
      methodsSites vis (locateMethods methods s).1 = (methodsSites vis methods).map Site.placed
  | [], _, _ => rfl
  | d :: rest, h, hq => by
    simp only [methodsViolations, reported_append, List.append_eq_nil_iff] at hq
    simp only [locateMethods, methodsSites, List.map_append, locateFunction_sites d h hq.1,
      locateMethods_sites rest (locateFunction_shows d h) hq.2]
end

theorem locateProgram_sites {program : List Stmt} (hq : (locateProgram program).2 = []) :
    programSites (locateProgram program).1 = (programSites program).map Site.placed := by
  have hstart : Scope.AllShow Scoping.start.scopes [] := .nil
  rw [locateProgram_reports] at hq
  exact locateStatements_sites program hstart hq

/-! Fresh trees. -/

/-- The place has no depth yet, and `this` is in scope where it stands. -/
def Site.Fresh (site : Site) : Prop :=
  site.occurrence.depth = .global ∧
    (site.isThis → ∃ names ∈ site.scopes, site.occurrence.name ∈ names)

/-- Inside a class the scope with `this` is around. -/
def Visible.Around (inClass : Bool) (vis : Visible) : Prop :=
  inClass → ∃ names ∈ vis, "this" ∈ names

namespace Visible.Around

variable {inClass : Bool} {vis : Visible}

theorem declareAll (h : Around inClass vis) (names : List String) :
    Around inClass (vis.declareAll names) := by
  intro hc
  obtain ⟨scope, hscope, hthis⟩ := h hc
  cases vis with
  | nil => cases hscope
  | cons here outer =>
    rcases List.mem_cons.1 hscope with rfl | houter
    · exact ⟨_, List.mem_cons_self, List.mem_append_left _ hthis⟩
    · exact ⟨scope, .tail _ houter, hthis⟩

theorem enter (h : Around inClass vis) (names : List String) : Around inClass (names :: vis) := by
  intro hc
  obtain ⟨scope, hscope, hthis⟩ := h hc
  exact ⟨scope, .tail _ hscope, hthis⟩

theorem extend (h : Around inClass vis) (init : ForInit) : Around inClass (init.extend vis) := by
  cases init with
  | declare decl => exact h.enter _
  | nothing | evaluate => exact h

end Visible.Around

section
variable {inClass : Bool} {vis : Visible}

theorem AllFresh.sites (hv : vis.Around inClass) {marks : List Mark}
    (h : AllFresh inClass marks) : ∀ site ∈ sitesOf vis marks, site.Fresh := by
  intro site hsite
  obtain ⟨m, hm, rfl⟩ := List.mem_map.1 hsite
  obtain ⟨hdepth, hthis⟩ := h m hm
  refine ⟨hdepth, fun hit => ?_⟩
  obtain ⟨hname, hclass⟩ := hthis hit
  obtain ⟨names, hnames, hmem⟩ := hv hclass
  exact ⟨names, hnames, hname ▸ hmem⟩

theorem VarDecl.Fresh.sites (hv : vis.Around inClass) {decl : VarDecl}
    (h : decl.Fresh inClass) : ∀ site ∈ decl.sites vis, site.Fresh :=
  AllFresh.sites (hv.declareAll _) h

theorem ForInit.Fresh.sites (hv : vis.Around inClass) {init : ForInit}
    (h : init.Fresh inClass) : ∀ site ∈ init.sites vis, site.Fresh := by
  cases init with
  | nothing => simp [ForInit.sites]
  | declare decl => exact VarDecl.Fresh.sites (hv.enter []) h
  | evaluate e => exact AllFresh.sites hv h

end

mutual
theorem Stmt.fresh_sites {inClass : Bool} {vis : Visible} (hv : vis.Around inClass) :
    (stmt : Stmt) → stmt.Fresh inClass → ∀ site ∈ stmt.sites vis, site.Fresh
  | .expression _ _, h | .print _ _, h | .returns _ _, h => AllFresh.sites hv h
  | .var _, h => VarDecl.Fresh.sites hv h
  | .function decl, h => functionFresh_sites (hv.declareAll _) decl h
  | .classDecl _ methods _, h =>
    methodsFresh_sites (fun _ => ⟨_, List.mem_cons_self, List.mem_singleton_self _⟩) methods h
  | .block statements _, h => statementsFresh_sites (hv.enter []) statements h
  | .ifThen _ thenBranch _, ⟨hc, ht⟩ =>
    List.forall_mem_append.2 ⟨AllFresh.sites hv hc, thenBranch.fresh_sites hv ht⟩
  | .ifElse _ thenBranch elseBranch _, ⟨hc, ht, he⟩ => by
    refine List.forall_mem_append.2 ⟨List.forall_mem_append.2 ⟨AllFresh.sites hv hc, ?_⟩, ?_⟩
    · exact thenBranch.fresh_sites hv ht
    · exact elseBranch.fresh_sites (hv.declareAll _) he
  | .whileLoop _ body _, ⟨hc, hb⟩ =>
    List.forall_mem_append.2 ⟨AllFresh.sites hv hc, body.fresh_sites hv hb⟩
  | .forLoop init condition increment body _, ⟨hi, hc, hn, hb⟩ => by
    have hin := hv.extend init
    simp only [Stmt.sites, List.forall_mem_append]
    exact ⟨⟨⟨ForInit.Fresh.sites hv hi, AllFresh.sites hin hc⟩, AllFresh.sites hin hn⟩,
      body.fresh_sites hin hb⟩
  | .loopExit _ _, _ => by simp [Stmt.sites]

theorem statementsFresh_sites {inClass : Bool} {vis : Visible} (hv : vis.Around inClass) :
    (statements : List Stmt) → statementsFresh inClass statements →
      ∀ site ∈ statementsSites vis statements, site.Fresh
  | [], _ => by simp [statementsSites]
  | first :: rest, ⟨hf, hr⟩ => List.forall_mem_append.2
      ⟨first.fresh_sites hv hf, statementsFresh_sites (hv.declareAll _) rest hr⟩

theorem functionFresh_sites {inClass : Bool} {vis : Visible} (hv : vis.Around inClass) :
    (decl : FunDecl Stmt) → functionFresh inClass decl →
      ∀ site ∈ functionSites vis decl, site.Fresh
  | ⟨_, params, body, _, _⟩, h => statementsFresh_sites (hv.enter params) body h

theorem methodsFresh_sites {inClass : Bool} {vis : Visible} (hv : vis.Around inClass) :
    (methods : List (FunDecl Stmt)) → methodsFresh inClass methods →
      ∀ site ∈ methodsSites vis methods, site.Fresh
  | [], _ => by simp [methodsSites]
  | d :: rest, ⟨hd, hr⟩ => List.forall_mem_append.2
      ⟨functionFresh_sites hv d hd, methodsFresh_sites hv rest hr⟩
end

theorem Visible.distance?_eq_some_iff {vis : Visible} {name : String} {n : Nat} :
    vis.distance? name = some n ↔
      (∃ names ∈ vis[n]?, name ∈ names) ∧ ∀ m < n, ∀ names ∈ vis[m]?, name ∉ names := by
  rw [Visible.distance?, List.findIdx?_eq_some_iff_getElem]
  constructor
  · rintro ⟨hn, hmem, hbefore⟩
    refine ⟨⟨vis[n], by simp [hn], by simpa using hmem⟩, fun m hm names hnames => ?_⟩
    obtain ⟨hlt, rfl⟩ := List.getElem?_eq_some_iff.1 hnames
    simpa using hbefore m hm
  · rintro ⟨⟨names, hnames, hmem⟩, hbefore⟩
    obtain ⟨hlt, rfl⟩ := List.getElem?_eq_some_iff.1 hnames
    refine ⟨hlt, by simpa using hmem, fun m hm => ?_⟩
    have hne := hbefore m hm vis[m] (by simp [Nat.lt_trans hm hlt])
    simpa using hne

theorem Visible.distance?_eq_none_iff {vis : Visible} {name : String} :
    vis.distance? name = none ↔ ∀ names ∈ vis, name ∉ names := by
  simp [Visible.distance?]

theorem Visible.depth_eq_hops_iff {vis : Visible} {name : String} {n : Nat} :
    vis.depth name = .hops n ↔ vis.distance? name = some n := by
  rw [Visible.depth]
  cases vis.distance? name <;> simp

theorem Visible.depth_eq_global_iff {vis : Visible} {name : String} :
    vis.depth name = .global ↔ vis.distance? name = none := by
  rw [Visible.depth]
  cases vis.distance? name <;> simp

theorem Site.placed_name (site : Site) : site.placed.occurrence.name = site.occurrence.name := by
  simp only [Site.placed, Mark.placed, Occurrence.placed]
  cases site.scopes.distance? site.occurrence.name <;> rfl

/-- The depth of a fresh place is the distance of its name. -/
theorem Site.Fresh.placed_depth {site : Site} (h : site.Fresh) :
    site.placed.occurrence.depth = site.scopes.depth site.occurrence.name := by
  have hdepth := h.1
  simp only [Site.placed, Mark.placed, Occurrence.placed, Visible.depth]
  cases site.scopes.distance? site.occurrence.name with
  | none => exact hdepth
  | some n => rfl

theorem Site.Fresh.unplaced_placed {site : Site} (h : site.Fresh) :
    site.placed.unplaced = site := by
  have hdepth := h.1
  rcases site with ⟨⟨isThis, name, depth⟩, scopes⟩
  cases hdepth
  simp only [Site.placed, Mark.placed, Occurrence.placed, Site.unplaced]
  cases scopes.distance? name <;> rfl

open Grammar in
/-- If the walk of a program that was read reports nothing, then it keeps every site and gives it a
depth: the number of scopes between the site and the innermost one that has been given its name
before, or global where no scope has. Each `this` has such a scope. -/
theorem parse_located_depths {tokens : List Token}
    (hq : (locateProgram (parse tokens).statements).2 = []) :
    (programSites (locateProgram (parse tokens).statements).1).map Site.unplaced =
        programSites (parse tokens).statements ∧
      ∀ site ∈ programSites (locateProgram (parse tokens).statements).1,
        (∀ n, site.occurrence.depth = .hops n ↔
          (∃ names ∈ site.scopes[n]?, site.occurrence.name ∈ names) ∧
            ∀ m < n, ∀ names ∈ site.scopes[m]?, site.occurrence.name ∉ names) ∧
        (site.occurrence.depth = .global ↔
          ∀ names ∈ site.scopes, site.occurrence.name ∉ names) ∧
        (site.isThis → ∃ n, site.occurrence.depth = .hops n) := by
  have htop : Visible.Around false [] := nofun
  have hfresh : ∀ site ∈ programSites (parse tokens).statements, site.Fresh :=
    statementsFresh_sites htop _ (parse_fresh tokens)
  rw [locateProgram_sites hq]
  constructor
  · have hback : ∀ site ∈ programSites (parse tokens).statements,
        (Site.unplaced ∘ Site.placed) site = site := fun site h => (hfresh site h).unplaced_placed
    rw [List.map_map, List.map_congr_left hback, List.map_id']
  · intro placed hplaced
    obtain ⟨site, hsite, rfl⟩ := List.mem_map.1 hplaced
    have hf := hfresh site hsite
    have hdepth := hf.placed_depth
    rw [hdepth, site.placed_name]
    refine ⟨fun n => ?_, ?_, fun hthis => ?_⟩
    · rw [Visible.depth_eq_hops_iff]
      exact Visible.distance?_eq_some_iff
    · rw [Visible.depth_eq_global_iff]
      exact Visible.distance?_eq_none_iff
    · obtain ⟨names, hnames, hmem⟩ := hf.2 hthis
      cases hd : site.scopes.distance? site.occurrence.name with
      | none => exact absurd hmem (Visible.distance?_eq_none_iff.1 hd names hnames)
      | some n => exact ⟨n, Visible.depth_of_distance hd⟩

/-- A method whose block sees the variable one scope away, and `this` two. -/
def depthSample : List Token :=
  let word (kind : Kind) : Token := ⟨kind, "", .nil, 1⟩
  let name (lexeme : String) : Token := ⟨.identifier, lexeme, .nil, 1⟩
  [word .kwClass, name "A", word .leftBrace, name "m", word .leftParen, name "x",
   word .rightParen, word .leftBrace, word .kwVar, name "y", word .equal, name "x",
   word .semicolon, word .leftBrace, name "y", word .equal, word .kwThis, word .semicolon,
   word .rightBrace, word .rightBrace, word .rightBrace, word .eof]

theorem depthSample_depths :
    (locateProgram (Grammar.parse depthSample).statements).2 = [] ∧
      ∀ site ∈ programSites (locateProgram (Grammar.parse depthSample).statements).1,
        site.isThis → ∃ n, site.occurrence.depth = .hops n := by
  have hq : (locateProgram (Grammar.parse depthSample).statements).2 = [] := by decide
  exact ⟨hq, fun site hsite => ((parse_located_depths hq).2 site hsite).2.2⟩

end Lox
