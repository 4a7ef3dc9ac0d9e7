import Mathlib.Data.List.Forall2
import Lox.Proofs.Scope.Placed
import Lox.Proofs.Scope.Reports

/-! A walk without reports places every name of a tree that the grammar has. -/
namespace Lox

open Grammar (Context)

/-- The scope has these names, and all of them may be read. -/
def Scope.Shows (scope : Scope) (names : List String) : Prop :=
  ∀ name, scope.lookup name = if name ∈ names then some true else none

namespace Scope.Shows

theorem nil : Scope.Shows [] [] := fun _ => rfl

/-- A name counts from its latest record on. -/
theorem cons {scope scope' : Scope} {names : List String} (h : Scope.Shows scope names)
    {name : String} (hs : ∀ other, other ≠ name → scope'.lookup other = scope.lookup other) :
    Scope.Shows ((name, true) :: scope') (name :: names) := by
  intro other
  by_cases hn : other = name
  · simp [hn]
  · have hne : (other == name) = false := by simpa using hn
    simp [List.lookup_cons, hne, hs other hn, h other, hn]

theorem not_declares {scope : Scope} {names : List String} (h : Scope.Shows scope names)
    {name : String} (hn : scope.declares name = false) : name ∉ names := by
  intro hmem
  simp [Scope.declares, h name, hmem] at hn

theorem not_pending {scope : Scope} {names : List String} (h : Scope.Shows scope names)
    (name : String) : scope.isPending name = false := by
  simp only [Scope.isPending, h name]
  split <;> rfl

end Scope.Shows

/-- The open scopes have these names, and all of them may be read. -/
def Scope.AllShow (scopes : List Scope) (vis : Visible) : Prop :=
  List.Forall₂ Scope.Shows scopes vis

theorem Scope.AllShow.distance?_eq {scopes : List Scope} {vis : Visible}
    (h : Scope.AllShow scopes vis) (name : String) :
    Scope.distance? name scopes = vis.distance? name := by
  induction h with
  | nil => rfl
  | @cons scope names scopes vis hs _ ih =>
    rw [Scope.distance?, Visible.distance?_cons, ih]
    by_cases hn : name ∈ names <;> simp [Scope.declares, hs name, hn]

/-- The order of the names in a scope does not matter. -/
theorem Scope.AllShow.congr {scopes : List Scope} {names names' : List String} {vis : Visible}
    (h : Scope.AllShow scopes (names :: vis)) (hn : ∀ name, name ∈ names ↔ name ∈ names') :
    Scope.AllShow scopes (names' :: vis) := by
  cases h with
  | cons hs ho => exact .cons (fun name => by rw [hs name]; simp only [hn]) ho

/-- What a walk of an expression finds: the distances to visible names, except to one whose
initializer is the expression itself. -/
structure Scope.Finds (scopes : List Scope) (vis : Visible) : Prop where
  distance : ∀ name, (∀ scope ∈ scopes.head?, scope.isPending name = false) →
    Scope.distance? name scopes = vis.distance? name
  this : ∀ scope ∈ scopes.head?, scope.isPending "this" = false

namespace Scope.Finds

variable {scopes : List Scope} {vis : Visible}

theorem of_allShow (h : Scope.AllShow scopes vis) : Scope.Finds scopes vis where
  distance name _ := h.distance?_eq name
  this scope hs := by
    cases h with
    | nil => cases hs
    | cons hs' _ =>
      cases hs
      exact hs'.not_pending _

/-- In the initializer of a name the other names are found as before. -/
theorem of_pending {s : Scoping} (h : Scope.AllShow s.scopes vis) {name : String}
    (hn : name ≠ "this") : Scope.Finds (s.record name false).scopes vis := by
  rcases s with ⟨scopes, reports⟩
  cases h with
  | nil => exact of_allShow .nil
  | @cons scope names outer vis hs ho =>
    constructor
    · intro other hp
      have hne : other ≠ name := by
        rintro rfl
        simp [Scoping.record, Scope.isPending] at hp
      have hne' : (other == name) = false := by simpa using hne
      have h : Scope.AllShow (scope :: outer) (names :: vis) := .cons hs ho
      rw [← h.distance?_eq]
      simp [Scoping.record, Scope.distance?, Scope.declares, List.lookup_cons, hne']
    · intro scope' hs'
      cases hs'
      have hne : ("this" == name) = false := by simpa using fun e => hn e.symm
      simpa [Scope.isPending, List.lookup_cons, hne] using hs.not_pending "this"

end Scope.Finds

namespace Occurrence

variable {scopes : List Scope} {vis : Visible} {o : Occurrence}

theorem not_pending_of_fault?_none {line : Nat} (h : o.fault? scopes line = none) :
    ∀ scope ∈ scopes.head?, scope.isPending o.name = false := by
  cases scopes with
  | nil => simp
  | cons scope outer =>
    intro scope' hs
    cases hs
    simpa [Occurrence.fault?] using h

theorem locate_placed (hf : Scope.Finds scopes vis) (ho : o.depth = .global)
    (hp : ∀ scope ∈ scopes.head?, scope.isPending o.name = false)
    (hthis : o.name = "this" → (vis.distance? o.name).isSome) : (o.locate scopes).Placed vis := by
  have hd := hf.distance o.name hp
  unfold Occurrence.locate
  split
  next n hn => exact ⟨(Visible.depth_of_distance (hd ▸ hn)).symm, hthis⟩
  next hn => exact ⟨by rw [ho, Visible.depth_of_none (hd ▸ hn)], hthis⟩

end Occurrence

/-- The symbol that no scanned program has. -/
def Symbol.thisName : Symbol := .identifier "this"

theorem name_ne_this {name : String} (h : Symbol.thisName ≠ .identifier name) : name ≠ "this" := by
  rintro rfl
  exact h rfl

section
variable {inClass : Bool} {scopes : List Scope} {vis : Visible}

mutual
theorem Expr.locate_placed (hf : Scope.Finds scopes vis)
    (hc : inClass → (vis.distance? "this").isSome) : (e : Expr) → e.Grammatical inClass →
      Symbol.thisName ∉ e.symbols → (e.locate scopes).2 = none → (e.locate scopes).1.Placed vis
  | .literal _ _, _, _, _ => trivial
  | .group inner _, hg, hw, hq =>
    inner.locate_placed hf hc hg (fun h => hw (by simp [Expr.symbols, h])) hq
  | .unary _ right _, hg, hw, hq =>
    right.locate_placed hf hc hg.2 (fun h => hw (by simp [Expr.symbols, h])) hq
  | .binary left _ right _, ⟨⟨_, hl⟩, _, hr⟩, hw, hq => by
    simp only [Expr.locate] at hq ⊢
    split at hq
    next => cases hq
    next hq' =>
      exact ⟨left.locate_placed hf hc hl (fun h => hw (by simp [Expr.symbols, h])) hq',
        right.locate_placed hf hc hr (fun h => hw (by simp [Expr.symbols, h])) hq⟩
  | .read o line, ho, hw, hq => by
    simp only [Expr.locate] at hq ⊢
    split at hq
    next => cases hq
    next hp =>
      have hn : o.name ≠ "this" := name_ne_this fun h => hw (by simp [Expr.symbols, h])
      exact Occurrence.locate_placed hf ho (Occurrence.not_pending_of_fault?_none hp)
        fun h => absurd h hn
  | .this o _, ⟨ho, hin⟩, _, _ => by
    subst ho
    exact Occurrence.locate_placed hf rfl hf.this fun _ => hc hin
  | .assign target value line, ⟨ho, hv⟩, hw, hq => by
    simp only [Expr.locate] at hq ⊢
    split at hq
    next => cases hq
    next hq' =>
      split at hq
      next => cases hq
      next hp =>
        have hn : target.name ≠ "this" := name_ne_this fun h => hw (by simp [Expr.symbols, h])
        exact ⟨Occurrence.locate_placed hf ho (Occurrence.not_pending_of_fault?_none hp)
            fun h => absurd h hn,
          value.locate_placed hf hc hv (fun h => hw (by simp [Expr.symbols, h])) hq'⟩
  | .get object _ _, hg, hw, hq =>
    object.locate_placed hf hc hg.2 (fun h => hw (by simp [Expr.symbols, h])) hq
  | .set object _ value _, ⟨⟨_, ho⟩, hv⟩, hw, hq => by
    simp only [Expr.locate] at hq ⊢
    split at hq
    next => cases hq
    next hq' =>
      exact ⟨object.locate_placed hf hc ho (fun h => hw (by simp [Expr.symbols, h])) hq,
        value.locate_placed hf hc hv (fun h => hw (by simp [Expr.symbols, h])) hq'⟩
  | .call callee arguments _, ⟨⟨_, hg⟩, _, ha⟩, hw, hq => by
    simp only [Expr.locate] at hq ⊢
    split at hq
    next => cases hq
    next hq' =>
      exact ⟨callee.locate_placed hf hc hg (fun h => hw (by simp [Expr.symbols, h])) hq',
        locateArguments_placed hf hc arguments ha (fun h => hw (by simp [Expr.symbols, h])) hq⟩

theorem locateArguments_placed (hf : Scope.Finds scopes vis)
    (hc : inClass → (vis.distance? "this").isSome) : (es : List Expr) →
      argumentsGrammatical inClass es → Symbol.thisName ∉ argumentSymbols es →
        (locateArguments scopes es).2 = none → argumentsPlaced vis (locateArguments scopes es).1
  | [], _, _, _ => trivial
  | e :: rest, ⟨he, hrest⟩, hw, hq => by
    simp only [locateArguments] at hq ⊢
    split at hq
    next => cases hq
    next hq' =>
      refine ⟨e.locate_placed hf hc he (fun h => hw (by simp [argumentSymbols, h])) hq',
        locateArguments_placed hf hc rest hrest (fun h => hw ?_) hq⟩
      cases rest with
      | nil => cases h
      | cons e' rest => simp [argumentSymbols] at h ⊢; tauto
end

end

namespace Visible

variable {vis : Visible} {name : String}

theorem isSome_cons (names : List String) (h : (vis.distance? name).isSome) :
    (distance? (names :: vis) name).isSome := by
  rw [distance?_cons]
  split
  · rfl
  · simpa using h

theorem isSome_declare (other : String) (h : (vis.distance? name).isSome) :
    ((vis.declare other).distance? name).isSome := by
  by_cases hn : name = other
  · cases vis with
    | nil => exact h
    | cons => rw [hn, distance?_declare_self (by simp)]; rfl
  · rwa [distance?_declare_ne vis hn]

end Visible

namespace Scoping

variable {inClass : Bool} {vis : Visible} {s : Scoping}

theorem takes_of_not_taken (h : Scope.AllShow s.scopes vis) {name : String}
    (hn : s.isTaken name = false) : vis.Takes name := by
  rcases s with ⟨scopes, reports⟩
  cases h with
  | nil => simp [Visible.Takes]
  | cons hs _ =>
    intro names hv
    cases hv
    exact hs.not_declares hn

theorem record_allShow (h : Scope.AllShow s.scopes vis) (name : String) :
    Scope.AllShow (s.record name true).scopes (vis.declare name) := by
  rcases s with ⟨scopes, reports⟩
  cases h with
  | nil => exact .nil
  | cons hs ho => exact .cons (hs.cons fun _ _ => rfl) ho

/-- The record of a name whose initializer is behind it counts more than the one before. -/
theorem record_record_allShow (h : Scope.AllShow s.scopes vis) (name : String) :
    Scope.AllShow ((s.record name false).record name true).scopes (vis.declare name) := by
  rcases s with ⟨scopes, reports⟩
  cases h with
  | nil => exact .nil
  | cons hs ho =>
    refine .cons (hs.cons fun other hn => ?_) ho
    have hne : (other == name) = false := by simpa using hn
    simp [List.lookup_cons, hne]

theorem leave_allShow (h : Scope.AllShow s.scopes vis) :
    Scope.AllShow s.leave.scopes vis.tail := by
  rcases s with ⟨scopes, reports⟩
  cases h with
  | nil => exact .nil
  | cons _ ho => exact ho

theorem locate_placed (hf : Scope.Finds s.scopes vis)
    (hc : inClass → (vis.distance? "this").isSome) {e : Expr} (hg : e.Grammatical inClass)
    (hw : Symbol.thisName ∉ e.symbols) (hq : (s.locate e).2.reports = []) :
    (s.locate e).2 = s ∧ (s.locate e).1.Placed vis := by
  simp only [locate] at hq ⊢
  split at hq
  next => simp [report] at hq
  next hn =>
    exact ⟨rfl, e.locate_placed hf hc hg hw hn⟩

theorem locate?_placed (hf : Scope.Finds s.scopes vis)
    (hc : inClass → (vis.distance? "this").isSome) {e? : Option Expr}
    (hg : optionalGrammatical inClass e?) (hw : Symbol.thisName ∉ optionalSymbols e?)
    (hq : (s.locate? e?).2.reports = []) :
    (s.locate? e?).2 = s ∧ optionalPlaced vis (s.locate? e?).1 := by
  cases e? with
  | none => exact ⟨rfl, trivial⟩
  | some e => exact locate_placed hf hc hg hw hq

theorem locateVar_placed (h : Scope.AllShow s.scopes vis)
    (hc : inClass → (vis.distance? "this").isSome) {decl : VarDecl}
    (hg : optionalGrammatical inClass decl.initializer) (hw : Symbol.thisName ∉ decl.symbols)
    (hq : (s.locateVar decl).2.reports = []) :
    (s.locateVar decl).1.Placed vis ∧ (s.locateVar decl).1.name = decl.name ∧
      Scope.AllShow (s.locateVar decl).2.scopes (vis.declare decl.name) := by
  have hn : decl.name ≠ "this" := name_ne_this fun e => hw (by simp [VarDecl.symbols, e])
  have hinit : Symbol.thisName ∉ optionalSymbols decl.initializer := by
    intro e
    refine hw ?_
    cases hi : decl.initializer with
    | none => simp [hi, optionalSymbols] at e
    | some init => simp_all [VarDecl.symbols, optionalSymbols]
  simp only [locateVar] at hq ⊢
  split at hq
  next => simp [redeclared, report] at hq
  next ht =>
    obtain ⟨hs, hp⟩ := locate?_placed (.of_pending h hn) hc hg hinit (by simpa using hq)
    rw [if_neg ht, hs]
    exact ⟨⟨takes_of_not_taken h (by simpa using ht), hp⟩, rfl, record_record_allShow h _⟩

theorem declareParams_allShow {line : Nat} {params names : List String}
    (h : Scope.AllShow s.scopes (names :: vis))
    (hq : (s.declareParams line params).reports = []) :
    params.Nodup ∧ (∀ name ∈ params, name ∉ names) ∧
      Scope.AllShow (s.declareParams line params).scopes ((params ++ names) :: vis) := by
  induction params generalizing s names with
  | nil => exact ⟨.nil, by simp, h⟩
  | cons name rest ih =>
    rw [declareParams] at hq ⊢
    split at hq
    next =>
      have hnone := (declareParams_adds _ line rest).nil hq
      simp [redeclared, report] at hnone
    next ht =>
      rw [if_neg ht]
      obtain ⟨hnodup, hrest, hs⟩ := ih (record_allShow h name) hq
      have hname : name ∉ names := takes_of_not_taken h (by simpa using ht) names rfl
      refine ⟨List.nodup_cons.2 ⟨fun hm => hrest name hm List.mem_cons_self, hnodup⟩, ?_, ?_⟩
      · intro other hm
        rcases List.mem_cons.1 hm with rfl | hm
        · exact hname
        · exact fun hin => hrest other hm (List.mem_cons_of_mem _ hin)
      · apply hs.congr
        intro other
        simp only [List.mem_append, List.mem_cons]
        tauto

theorem locateInit_placed (h : Scope.AllShow s.scopes vis)
    (hc : inClass → (vis.distance? "this").isSome) {init : ForInit}
    (hg : init.Grammatical inClass) (hw : Symbol.thisName ∉ init.symbols)
    (hq : ((if init.isDeclaration then s.enter [] else s).locateInit init).2.reports = []) :
    let r := (if init.isDeclaration then s.enter [] else s).locateInit init
    r.1.Placed vis ∧ r.1.extend vis = init.extend vis ∧
      Scope.AllShow r.2.scopes (init.extend vis) := by
  cases init with
  | nothing => exact ⟨trivial, rfl, h⟩
  | declare decl =>
    have hin : Scope.AllShow (s.enter []).scopes ([] :: vis) := .cons .nil h
    obtain ⟨hp, hn, hs⟩ := locateVar_placed hin (fun hi => Visible.isSome_cons _ (hc hi)) hg
      (fun h => hw (by simp [ForInit.symbols, h])) hq
    exact ⟨hp, by simp only [locateInit, ForInit.extend]; exact congrArg _ hn, hs⟩
  | evaluate e =>
    obtain ⟨hs, hp⟩ := locate_placed (.of_allShow h) hc hg
      (fun h => hw (by simp [ForInit.symbols, h])) hq
    refine ⟨hp, rfl, ?_⟩
    simp only [locateInit, ForInit.isDeclaration, Bool.false_eq_true, if_false, hs]
    exact h

end Scoping

theorem ForInit.isSome_extend {vis : Visible} {name : String} (init : ForInit)
    (h : (vis.distance? name).isSome) : ((init.extend vis).distance? name).isSome := by
  cases init with
  | declare decl => exact Visible.isSome_declare _ (Visible.isSome_cons _ h)
  | _ => exact h

theorem locateFunction_name (decl : FunDecl Stmt) (s : Scoping) :
    (locateFunction decl s).1.name = decl.name := by
  cases decl
  rfl

namespace Stmt

theorem locate_isDeclaration (stmt : Stmt) (s : Scoping) :
    (stmt.locate s).1.isDeclaration = stmt.isDeclaration := by
  cases stmt with
  | function | classDecl =>
    simp only [locate]
    split <;> rfl
  | _ => rfl

theorem locate_extend (stmt : Stmt) (s : Scoping) (vis : Visible) :
    (stmt.locate s).1.extend vis = stmt.extend vis := by
  cases stmt with
  | var decl =>
    simp only [locate, Scoping.locateVar]
    split <;> rfl
  | function decl =>
    simp only [locate]
    split
    · rfl
    · simp only [extend, locateFunction_name]
  | classDecl =>
    simp only [locate]
    split <;> rfl
  | _ => rfl

theorem extend_tail (stmt : Stmt) (vis : Visible) : (stmt.extend vis).tail = vis.tail := by
  cases stmt with
  | var | function | classDecl => cases vis <;> rfl
  | _ => rfl

end Stmt

section
variable {ctx : Context} {vis : Visible} {s : Scoping} {w : List Symbol}

/-- What is around a walk: the names that may be read, with `this` among them inside a class. -/
structure Scoping.Around (s : Scoping) (ctx : Context) (vis : Visible) : Prop where
  shows : Scope.AllShow s.scopes vis
  this : ctx.inClass → (vis.distance? "this").isSome

theorem Scoping.Around.enter (h : s.Around ctx vis) {scope : Scope} {names : List String}
    (hs : Scope.Shows scope names) : (s.enter scope).Around ctx (names :: vis) :=
  ⟨.cons hs h.shows, fun hc => Visible.isSome_cons _ (h.this hc)⟩

theorem Scoping.Around.record (h : s.Around ctx vis) (name : String) :
    (s.record name true).Around ctx (vis.declare name) :=
  ⟨record_allShow h.shows name, fun hc => Visible.isSome_declare _ (h.this hc)⟩

theorem Scoping.Around.finds (h : s.Around ctx vis) : Scope.Finds s.scopes vis :=
  .of_allShow h.shows

end

/-! Walks that find no fault. Scanned programs have no name `this`, so none hides a receiver. -/

/-- The walk of the statement places it and goes on behind it. -/
def Stmt.IsPlacedByWalk (stmt : Stmt) : Prop :=
  ∀ ⦃ctx : Context⦄ ⦃vis : Visible⦄ ⦃s : Scoping⦄ ⦃w : List Symbol⦄, s.Around ctx vis →
    stmt.Grammatical ctx → stmt.SpelledAs w → Symbol.thisName ∉ w →
      (stmt.locate s).2.reports = [] →
        (stmt.locate s).1.Placed ctx vis ∧ (stmt.locate s).2.Around ctx (stmt.extend vis)

/-- The walk of the statements places them. It may leave names in the innermost scope. -/
def statementsPlacedByWalk (statements : List Stmt) : Prop :=
  ∀ ⦃ctx : Context⦄ ⦃vis : Visible⦄ ⦃s : Scoping⦄ ⦃w : List Symbol⦄, s.Around ctx vis →
    statementsGrammatical ctx statements → statementsSpelledAs statements w →
      Symbol.thisName ∉ w → (locateStatements statements s).2.reports = [] →
        statementsPlaced ctx vis (locateStatements statements s).1 ∧
          ∃ vis', Scope.AllShow (locateStatements statements s).2.scopes vis' ∧
            vis'.tail = vis.tail

def functionPlacedByWalk (decl : FunDecl Stmt) : Prop :=
  ∀ ⦃ctx : Context⦄ ⦃vis : Visible⦄ ⦃s : Scoping⦄ ⦃w : List Symbol⦄, s.Around ctx vis →
    functionGrammatical ctx decl → functionSpelledAs decl w → Symbol.thisName ∉ w →
      (locateFunction decl s).2.reports = [] →
        functionPlaced ctx vis (locateFunction decl s).1 ∧ (locateFunction decl s).2.Around ctx vis

def methodsPlacedByWalk (methods : List (FunDecl Stmt)) : Prop :=
  ∀ ⦃ctx : Context⦄ ⦃vis : Visible⦄ ⦃s : Scoping⦄ ⦃w : List Symbol⦄, s.Around ctx vis →
    methodsGrammatical ctx methods → methodsSpelledAs methods w → Symbol.thisName ∉ w →
      (locateMethods methods s).2.reports = [] →
        methodsPlaced ctx vis (locateMethods methods s).1 ∧ (locateMethods methods s).2.Around ctx vis

/-- What was walked in a scope of its own leaves the scopes around it. -/
theorem Scoping.Around.leave {ctx : Context} {vis vis' : Visible} {s t : Scoping}
    (ha : s.Around ctx vis) (ht : Scope.AllShow t.scopes vis') (htail : vis'.tail = vis) :
    t.leave.Around ctx vis where
  shows := by
    rw [← htail]
    exact leave_allShow ht
  this := ha.this

namespace Stmt.IsPlacedByWalk

variable {line : Nat}

theorem expression (e : Expr) : (Stmt.expression e line).IsPlacedByWalk := by
  intro ctx vis s w ha hg hs hw hq
  cases hs
  simp only [Stmt.locate, Stmt.extend] at hq ⊢
  obtain ⟨hs, hp⟩ := Scoping.locate_placed ha.finds ha.this hg (fun h => hw (by simp [h])) hq
  rw [hs]
  exact ⟨hp, ha⟩

theorem print (e : Expr) : (Stmt.print e line).IsPlacedByWalk := by
  intro ctx vis s w ha hg hs hw hq
  cases hs
  simp only [Stmt.locate, Stmt.extend] at hq ⊢
  obtain ⟨hs, hp⟩ := Scoping.locate_placed ha.finds ha.this hg (fun h => hw (by simp [h])) hq
  rw [hs]
  exact ⟨hp, ha⟩

theorem var (decl : VarDecl) : (Stmt.var decl).IsPlacedByWalk := by
  intro ctx vis s w ha hg hs hw hq
  cases hs
  obtain ⟨hp, -, hshow⟩ := Scoping.locateVar_placed ha.shows ha.this hg
    (fun h => hw (by simp [h])) hq
  exact ⟨hp, hshow, fun hc => Visible.isSome_declare _ (ha.this hc)⟩

theorem function {decl : FunDecl Stmt} (h : functionPlacedByWalk decl) :
    (Stmt.function decl).IsPlacedByWalk := by
  intro ctx vis s w ha hg hs hw hq
  rcases hs with ⟨v, hv, rfl⟩
  simp only [Stmt.locate] at hq ⊢
  split at hq
  next => simp [Scoping.redeclared, Scoping.report] at hq
  next ht =>
    rw [if_neg ht]
    obtain ⟨hp, hr⟩ := h (ha.record decl.name) hg hv (fun h => hw (by simp [h])) hq
    refine ⟨⟨?_, ?_⟩, hr⟩
    · rw [locateFunction_name]
      exact Scoping.takes_of_not_taken ha.shows (by simpa using ht)
    · rwa [locateFunction_name]

theorem classDecl {name : String} {methods : List (FunDecl Stmt)}
    (h : methodsPlacedByWalk methods) : (Stmt.classDecl name methods line).IsPlacedByWalk := by
  intro ctx vis s w ha hg hs hw hq
  rcases hs with ⟨v, hv, rfl⟩
  simp only [Stmt.locate] at hq ⊢
  split at hq
  next => simp [Scoping.redeclared, Scoping.report] at hq
  next ht =>
    rw [if_neg ht]
    have hthis : Scope.Shows [("this", true)] ["this"] := .cons .nil fun _ _ => rfl
    have hin : ((s.record name true).enter [("this", true)]).Around ctx.enterClass
        (["this"] :: vis.declare name) :=
      ⟨.cons hthis (ha.record name).shows, fun _ => by simp [Visible.distance?_cons]⟩
    obtain ⟨hp, hr⟩ := h hin hg hv (fun h => hw (by simp [h])) hq
    exact ⟨⟨Scoping.takes_of_not_taken ha.shows (by simpa using ht), hp⟩,
      (ha.record name).leave hr.shows rfl⟩

theorem block {statements : List Stmt} (h : statementsPlacedByWalk statements) :
    (Stmt.block statements line).IsPlacedByWalk := by
  intro ctx vis s w ha hg hs hw hq
  rcases hs with ⟨v, hv, rfl⟩
  obtain ⟨hp, vis', hr, ht⟩ := h (ha.enter .nil) hg hv (fun h => hw (by simp [h])) hq
  exact ⟨hp, ha.leave hr ht⟩

/-- A branch or the body of a loop, which declares nothing. -/
theorem inner {stmt : Stmt} (h : stmt.IsPlacedByWalk) (hd : stmt.isDeclaration = false)
    {ctx : Context} {vis : Visible} {s : Scoping} {w : List Symbol} (ha : s.Around ctx vis)
    (hg : stmt.Grammatical ctx) (hs : stmt.SpelledAs w) (hw : Symbol.thisName ∉ w)
    (hq : (stmt.locate s).2.reports = []) :
    (stmt.locate s).1.isDeclaration = false ∧ (stmt.locate s).1.Placed ctx vis ∧
      (stmt.locate s).2.Around ctx vis := by
  obtain ⟨hp, hr⟩ := h ha hg hs hw hq
  rw [Stmt.extend_of_not_declaration hd] at hr
  exact ⟨by rw [Stmt.locate_isDeclaration, hd], hp, hr⟩

theorem ifThen {condition : Expr} {thenBranch : Stmt} (h : thenBranch.IsPlacedByWalk) :
    (Stmt.ifThen condition thenBranch line).IsPlacedByWalk := by
  rintro ctx vis s w ha ⟨hc, hd, ht⟩ hs hw hq
  rcases hs with ⟨v, hv, rfl⟩
  have hq' := (thenBranch.locate_adds _).nil hq
  obtain ⟨hs, hcp⟩ := Scoping.locate_placed ha.finds ha.this hc (fun h => hw (by simp [h])) hq'
  simp only [Stmt.locate, hs] at hq ⊢
  obtain ⟨hd, htp, htr⟩ := h.inner hd ha ht hv (fun h => hw (by simp [h])) hq
  exact ⟨⟨hcp, hd, htp⟩, htr⟩

theorem ifElse {condition : Expr} {thenBranch elseBranch : Stmt} (h : thenBranch.IsPlacedByWalk)
    (h' : elseBranch.IsPlacedByWalk) :
    (Stmt.ifElse condition thenBranch elseBranch line).IsPlacedByWalk := by
  rintro ctx vis s w ha ⟨hc, ⟨hd, -, ht⟩, hd', he⟩ hs hw hq
  rcases hs with ⟨u, v, hu, hv, rfl⟩
  have hqt := (elseBranch.locate_adds _).nil hq
  have hqc := (thenBranch.locate_adds _).nil hqt
  obtain ⟨hs, hcp⟩ := Scoping.locate_placed ha.finds ha.this hc (fun h => hw (by simp [h])) hqc
  simp only [Stmt.locate, hs] at hq hqt ⊢
  obtain ⟨hd, htp, htr⟩ := h.inner hd ha ht hu (fun h => hw (by simp [h])) hqt
  obtain ⟨hd', hep, her⟩ := h'.inner hd' htr he hv (fun h => hw (by simp [h])) hq
  exact ⟨⟨hcp, ⟨hd, htp⟩, hd', hep⟩, her⟩

theorem whileLoop {condition : Expr} {body : Stmt} (h : body.IsPlacedByWalk) :
    (Stmt.whileLoop condition body line).IsPlacedByWalk := by
  rintro ctx vis s w ha ⟨hc, hd, hb⟩ hs hw hq
  rcases hs with ⟨v, hv, rfl⟩
  have hq' := (body.locate_adds _).nil hq
  obtain ⟨hs, hcp⟩ := Scoping.locate_placed ha.finds ha.this hc (fun h => hw (by simp [h])) hq'
  simp only [Stmt.locate, hs] at hq ⊢
  have hin : s.Around ctx.enterLoop vis := ⟨ha.shows, ha.this⟩
  obtain ⟨hd, hbp, hbr⟩ := h.inner hd hin hb hv (fun h => hw (by simp [h])) hq
  exact ⟨⟨hcp, hd, hbp⟩, hbr.shows, hbr.this⟩

theorem forLoop {init : ForInit} {condition increment : Option Expr} {body : Stmt}
    (h : body.IsPlacedByWalk) :
    (Stmt.forLoop init condition increment body line).IsPlacedByWalk := by
  rintro ctx vis s w ha ⟨⟨hi, hc, hn⟩, hd, hb⟩ hs hw hq
  rcases hs with ⟨v, hv, rfl⟩
  simp only [Stmt.locate, Stmt.extend] at hq ⊢
  have hleave (t : Scoping) : (if init.isDeclaration then t.leave else t).reports = t.reports := by
    split <;> rfl
  rw [hleave] at hq
  have hqn := (body.locate_adds _).nil hq
  have hqc := (Scoping.locate?_adds _ _).nil hqn
  have hqi := (Scoping.locate?_adds _ _).nil hqc
  obtain ⟨hip, hie, his⟩ := Scoping.locateInit_placed ha.shows ha.this hi
    (fun h => hw (by simp [h])) hqi
  generalize (if init.isDeclaration = true then s.enter [] else s).locateInit init = i at *
  have hin : i.2.Around ctx.enterLoop (init.extend vis) :=
    ⟨his, fun hc => ForInit.isSome_extend init (ha.this hc)⟩
  obtain ⟨hs, hcp⟩ := Scoping.locate?_placed hin.finds hin.this hc (fun h => hw (by simp [h])) hqc
  rw [hs] at hq hqn ⊢
  obtain ⟨hs, hnp⟩ := Scoping.locate?_placed hin.finds hin.this hn (fun h => hw (by simp [h])) hqn
  rw [hs] at hq ⊢
  obtain ⟨hd, hbp, hbr⟩ := h.inner hd hin hb hv (fun h => hw (by simp [h])) hq
  refine ⟨⟨⟨hip, hie ▸ hcp, hie ▸ hnp⟩, hd, hie ▸ hbp⟩, ?_⟩
  cases init with
  | declare decl => exact ⟨Scoping.leave_allShow hbr.shows, ha.this⟩
  | nothing | evaluate e => exact ⟨hbr.shows, ha.this⟩

theorem loopExit (exit : LoopExit) : (Stmt.loopExit exit line).IsPlacedByWalk :=
  fun _ _ _ _ ha hg _ _ _ => ⟨hg, ha⟩

theorem returns (value : Option Expr) : (Stmt.returns value line).IsPlacedByWalk := by
  rintro ctx vis s w ha ⟨hf, hg⟩ hs hw hq
  cases hs
  simp only [Stmt.locate, Stmt.extend] at hq ⊢
  obtain ⟨hs, hp⟩ := Scoping.locate?_placed ha.finds ha.this hg (fun h => hw (by simp [h])) hq
  rw [hs]
  exact ⟨⟨hf, hp⟩, ha⟩

end Stmt.IsPlacedByWalk

theorem statementsPlacedByWalk_cons {first : Stmt} {rest : List Stmt} (h : first.IsPlacedByWalk)
    (h' : statementsPlacedByWalk rest) : statementsPlacedByWalk (first :: rest) := by
  rintro ctx vis s w ha ⟨hf, hg⟩ hs hw hq
  rcases hs with ⟨u, v, hu, hv, rfl⟩
  have hq' := (locateStatements_adds rest _).nil hq
  obtain ⟨hfp, hfr⟩ := h ha hf hu (fun h => hw (by simp [h])) hq'
  obtain ⟨hp, vis', hr, ht⟩ := h' hfr hg hv (fun h => hw (by simp [h])) hq
  refine ⟨⟨hfp, ?_⟩, vis', hr, by rw [ht, Stmt.extend_tail]⟩
  rw [Stmt.locate_extend]
  exact hp

theorem functionPlacedByWalk_of_body {name : String} {params : List String} {body : List Stmt}
    {line site : Nat} (h : statementsPlacedByWalk body) :
    functionPlacedByWalk ⟨name, params, body, line, site⟩ := by
  rintro ctx vis s w ha ⟨-, hg, -⟩ hs hw hq
  rcases hs with ⟨v, hv, rfl⟩
  have hq' := (locateStatements_adds body _).nil hq
  obtain ⟨hnodup, -, hshow⟩ := Scoping.declareParams_allShow (ha.enter .nil).shows hq'
  have hin : ((s.enter []).declareParams line params).Around ctx.enterFunction (params :: vis) :=
    ⟨hshow.congr (by simp), fun hc => Visible.isSome_cons _ (ha.this hc)⟩
  obtain ⟨hp, vis', hr, ht⟩ := h hin hg hv (fun h => hw (by simp [h])) hq
  exact ⟨⟨hnodup, hp⟩, ha.leave hr ht⟩

theorem methodsPlacedByWalk_cons {method : FunDecl Stmt} {rest : List (FunDecl Stmt)}
    (h : functionPlacedByWalk method) (h' : methodsPlacedByWalk rest) :
    methodsPlacedByWalk (method :: rest) := by
  rintro ctx vis s w ha ⟨hm, hg⟩ hs hw hq
  rcases hs with ⟨u, v, hu, hv, hsplit⟩
  have hw' : Symbol.thisName ∉ u ++ v := by
    rcases hsplit with rfl | rfl
    · exact hw
    · exact fun h => hw (List.mem_cons_of_mem _ h)
  rw [List.mem_append, not_or] at hw'
  have hq' := (locateMethods_adds rest _).nil hq
  obtain ⟨hmp, hmr⟩ := h ha hm hu hw'.1 hq'
  obtain ⟨hp, hr⟩ := h' hmr hg hv hw'.2 hq
  exact ⟨⟨hmp, hp⟩, hr⟩

mutual
theorem Stmt.isPlacedByWalk : (stmt : Stmt) → stmt.IsPlacedByWalk
  | .expression e _ => .expression e
  | .print e _ => .print e
  | .var decl => .var decl
  | .function decl => .function (functionPlacedByWalk_all decl)
  | .classDecl _ methods _ => .classDecl (methodsPlacedByWalk_all methods)
  | .block statements _ => .block (statementsPlacedByWalk_all statements)
  | .ifThen _ thenBranch _ => .ifThen thenBranch.isPlacedByWalk
  | .ifElse _ thenBranch elseBranch _ =>
    .ifElse thenBranch.isPlacedByWalk elseBranch.isPlacedByWalk
  | .whileLoop _ body _ => .whileLoop body.isPlacedByWalk
  | .forLoop _ _ _ body _ => .forLoop body.isPlacedByWalk
  | .loopExit exit _ => .loopExit exit
  | .returns value _ => .returns value

theorem statementsPlacedByWalk_all : (statements : List Stmt) → statementsPlacedByWalk statements
  | [] => fun _ vis _ _ ha _ _ _ _ => ⟨trivial, vis, ha.shows, rfl⟩
  | first :: rest =>
    statementsPlacedByWalk_cons first.isPlacedByWalk (statementsPlacedByWalk_all rest)

theorem functionPlacedByWalk_all : (decl : FunDecl Stmt) → functionPlacedByWalk decl
  | ⟨_, _, body, _, _⟩ => functionPlacedByWalk_of_body (statementsPlacedByWalk_all body)

theorem methodsPlacedByWalk_all : (methods : List (FunDecl Stmt)) → methodsPlacedByWalk methods
  | [] => fun _ _ _ _ ha _ _ _ _ => ⟨trivial, ha⟩
  | method :: rest =>
    methodsPlacedByWalk_cons (functionPlacedByWalk_all method) (methodsPlacedByWalk_all rest)
end

end Lox
