import Lox.Proofs.Renaming.Visible

/-! The walk of the scopes over a program with other names for local variables: it finds no fault
that was not there, and the same depths. -/
namespace Lox

open Grammar (Context)

/-! Statements. -/

namespace Scoping

/-- Two walks at places that correspond, without a fault so far. -/
structure Abreast (x y : String) (R : Naming) (s s' : Scoping) (vis vis' : Visible) : Prop where
  names : vis.Renamed x y R vis'
  left : s.Quiet vis
  right : s'.Quiet vis'

/-- Only a name that has just been recorded may be pending. -/
theorem not_pending_record {s : Scoping} {vis : Visible} (h : Scope.AllShow s.scopes vis)
    {name other : String} :
    (∀ scope ∈ (s.record name false).scopes.head?, scope.isPending other = false) ↔
      vis = [] ∨ other ≠ name := by
  rcases s with ⟨scopes, reports⟩
  cases h with
  | nil => simp [Scoping.record]
  | cons hs _ =>
    by_cases hn : other = name
    · simp [Scoping.record, Scope.isPending, hn]
    · have hne : (other == name) = false := by simpa using hn
      have hp := hs.not_pending other
      simp only [Scope.isPending, beq_eq_false_iff_ne] at hp
      simp [Scoping.record, Scope.isPending, List.lookup_cons, hne, hp, hn]

namespace Abreast

variable {x y : String} {R R' : Naming} {s s' : Scoping} {vis vis' : Visible}

theorem start : Abreast x y Eq .start .start [] [] := ⟨.start, ⟨rfl, .nil⟩, ⟨rfl, .nil⟩⟩

theorem enter (h : Abreast x y R s s' vis vis') :
    Abreast x y R (s.enter []) (s'.enter []) ([] :: vis) ([] :: vis') :=
  ⟨h.names.enter, h.left.enter .nil, h.right.enter .nil⟩

theorem enterClass (h : Abreast x y R s s' vis vis') (hy : y ≠ "this") :
    Abreast x y R (s.enter [("this", true)]) (s'.enter [("this", true)]) (["this"] :: vis)
      (["this"] :: vis') := by
  have hthis : Scope.Shows [("this", true)] ["this"] := .cons .nil fun _ _ => rfl
  exact ⟨h.names.enterClass hy, h.left.enter hthis, h.right.enter hthis⟩

theorem record (h : Abreast x y R s s' vis vis') {a : String} (ha : a ≠ y) :
    Abreast x y (R.declare a a) (s.record a true) (s'.record a true) (vis.declare a)
      (vis'.declare a) :=
  ⟨h.names.declare (.kept a) ha, h.left.record a, h.right.record a⟩

theorem agree (h : Abreast x y R s s' vis vis') : Scope.Agree y R s.scopes s'.scopes where
  found {n n'} hn _ _ := by
    have hright := Scope.Finds.of_allShow h.right.shows
    refine ⟨Occurrence.fault?_none.1 (h.right.shows.fault?_none ⟨n', .global⟩ 0), ?_⟩
    rw [h.left.shows.distance?_eq, h.right.shows.distance?_eq, h.names.distance hn]
  this := (Scope.Finds.of_allShow h.left.shows).this

/-- A declaration that is walked has a counterpart that is. -/
theorem untaken {α : Type} {u : α} {r : α × Scoping} {a b : String} {line : Nat}
    (h : Abreast x y R s s' vis vis') (hab : Naming.Binds x y a b) (ha : a ≠ y)
    (hq : (if s.isTaken a then (u, s.redeclared a line) else r).2.reports = []) :
    s.isTaken a = false ∧ s'.isTaken b = false := by
  have ht : s.isTaken a = false := by
    by_contra ht
    rw [Bool.not_eq_false] at ht
    rw [if_pos ht] at hq
    exact redeclared_reports _ _ _ hq
  have htakes := (isTaken_iff h.left.shows).1 ht
  exact ⟨ht, (isTaken_iff h.right.shows).2 (h.names.takes hab ha htakes)⟩

/-- In the initializers of corresponding variables. -/
theorem agree_pending (h : Abreast x y R s s' vis vis') {a b : String}
    (hab : Naming.Binds x y a b) (ha : a ≠ y) (hthis : a ≠ "this") (hy : y ≠ "this") :
    Scope.Agree y R (s.record a false).scopes (s'.record b false).scopes where
  found {n n'} hn hne hp := by
    have hleft := Scope.Finds.of_pending h.left.shows hthis
    have hright := Scope.Finds.of_pending h.right.shows ((hab.this_iff hy).not.2 hthis)
    have hp' : ∀ scope ∈ (s'.record b false).scopes.head?, scope.isPending n' = false := by
      rw [not_pending_record h.left.shows] at hp
      rw [not_pending_record h.right.shows]
      exact hp.imp h.names.nil_iff.2 (hab.ne (h.names.within _ _ hn) ha hne)
    exact ⟨hp', by rw [hleft.distance n hp, hright.distance n' hp', h.names.distance hn]⟩
  this := (Scope.Finds.of_pending h.left.shows hthis).this

section
variable {inClass : Bool} (hthis : y ≠ "this") (h : Abreast x y R s s' vis vis')
include hthis h

theorem locate {e e' : Expr} (he : e.Renamed R e') (hg : e.Grammatical inClass)
    (hy : y ∉ e.names) : (s'.locate e').1.depths = (s.locate e).1.depths := by
  have hd := (he.locate hthis h.agree hg hy (h.left.shows.locate_none e)).2
  simpa only [Scoping.locate, h.left.shows.locate_none, h.right.shows.locate_none] using hd

theorem locate? {e? e?' : Option Expr} (he : OptionalRenamed R e? e?')
    (hg : optionalGrammatical inClass e?) (hy : y ∉ optionalNames e?) :
    optionalDepths (s'.locate? e?').1 = optionalDepths (s.locate? e?).1 := by
  cases he with
  | none => rfl
  | some he => exact h.locate hthis he hg hy

theorem locateVar {decl decl' : VarDecl} (hd : decl.Renamed x y R decl' R')
    (hg : optionalGrammatical inClass decl.initializer) (hw : Symbol.thisName ∉ decl.symbols)
    (hy : y ∉ decl.names) (hq : (s.locateVar decl).2.reports = []) :
    (s'.locateVar decl').2.Quiet (vis'.declare decl'.name) ∧
      optionalDepths (s'.locateVar decl').1.initializer =
        optionalDepths (s.locateVar decl).1.initializer := by
  cases hd with
  | @mk a b initializer initializer' line hab hi =>
    have ha : a ≠ y := fun he => hy (he ▸ List.mem_cons_self)
    have hagree := h.agree_pending hab ha (VarDecl.name_ne_this hw) hthis
    obtain ⟨ht, ht'⟩ := h.untaken hab ha hq
    have hready : ((s'.record b false).record b true).Quiet (vis'.declare b) :=
      ⟨by simp [h.right.reports], record_record_allShow h.right.shows _⟩
    simp only [Scoping.locateVar, ht, ht', Bool.false_eq_true, if_false] at hq ⊢
    cases hi with
    | none => exact ⟨hready, rfl⟩
    | @some e e' he =>
      have hn : (e.locate (s.record a false).scopes).2 = none := by
        simp only [Scoping.locate?, Scoping.locate] at hq
        split at hq
        next => simp [report] at hq
        next hn => exact hn
      have hye : y ∉ e.names := fun he => hy (List.mem_cons_of_mem _ he)
      obtain ⟨hn', hdepths⟩ := he.locate hthis hagree hg hye hn
      simp only [Scoping.locate?, Scoping.locate, hn, hn']
      exact ⟨hready, hdepths⟩

end

/-- The scope of a function whose walk finds no parameter twice. -/
theorem declareParams {params params' : List String}
    (h : Abreast x y R s s' ([] :: vis) ([] :: vis'))
    (hp : ParamsRenamed x y R params params' R') (hy : y ∉ params) (line : Nat)
    (hq : (s.declareParams line params).reports = []) :
    Abreast x y R' (s.declareParams line params) (s'.declareParams line params') (params :: vis)
      (params' :: vis') := by
  have hleft : (s.declareParams line params).Judges _ _ := h.left.declareParams line
  have hright : (s'.declareParams line params').Judges _ _ := h.right.declareParams line
  have hnodup' : params'.Nodup := hp.nodup hy (hleft.reports_iff.1 hq).1
  have hq' := hright.reports_iff.2 ⟨hnodup', by simp⟩
  have hnames := h.names.declareAll hp hy
  have hs := hleft.quiet hq
  have hs' := hright.quiet hq'
  rw [List.append_nil] at hs hs' hnames
  rw [List.append_nil] at hnames
  exact ⟨hnames, hs, hs'⟩

theorem locateInit {inClass : Bool} (h : Abreast x y R s s' vis vis') (hthis : y ≠ "this")
    {init init' : ForInit} (hi : init.Renamed x y R init' R') (hg : init.Grammatical inClass)
    (hw : Symbol.thisName ∉ init.symbols) (hy : y ∉ init.names)
    (hq : ((if init.isDeclaration then s.enter [] else s).locateInit init).2.reports = []) :
    ((if init'.isDeclaration then s'.enter [] else s').locateInit init').2.Quiet
        (init'.extend vis') ∧
      ((if init'.isDeclaration then s'.enter [] else s').locateInit init').1.depths =
        ((if init.isDeclaration then s.enter [] else s).locateInit init).1.depths := by
  cases hi with
  | nothing => exact ⟨h.right, rfl⟩
  | declare hd =>
    exact h.enter.locateVar hthis hd hg (fun hs => hw (List.mem_cons_of_mem _ hs)) hy hq
  | evaluate he =>
    refine ⟨?_, h.locate hthis he hg hy⟩
    simp only [ForInit.isDeclaration, Scoping.locateInit, Bool.false_eq_true, if_false,
      h.right.locate]
    exact h.right

end Abreast
end Scoping

/-! Where the walk of the one comes to the end, so does that of the other, and finds the same
depths. -/

section
variable (x y : String)

def Stmt.WalksAlike (R : Naming) (s s' : Stmt) : Prop :=
  ∀ ⦃ctx : Context⦄ ⦃vis vis' : Visible⦄ ⦃t t' : Scoping⦄, s.Grammatical ctx → s.Writable →
    y ∉ s.names → t.Abreast x y R t' vis vis' → (s.locate t).2.reports = [] →
      (s'.locate t').2.Quiet (s'.extend vis') ∧ (s'.locate t').1.depths = (s.locate t).1.depths

def statementsWalkAlike (R : Naming) (l l' : List Stmt) : Prop :=
  ∀ ⦃ctx : Context⦄ ⦃vis vis' : Visible⦄ ⦃t t' : Scoping⦄, statementsGrammatical ctx l →
    statementsWritable l → y ∉ statementsNames l → t.Abreast x y R t' vis vis' →
      (locateStatements l t).2.reports = [] →
        (locateStatements l' t').2.Quiet (statementsExtend vis' l') ∧
          statementsDepths (locateStatements l' t').1 = statementsDepths (locateStatements l t).1

def functionWalksAlike (R : Naming) (d d' : FunDecl Stmt) : Prop :=
  ∀ ⦃ctx : Context⦄ ⦃vis vis' : Visible⦄ ⦃t t' : Scoping⦄, functionGrammatical ctx d →
    functionWritable d → y ∉ functionNames d → t.Abreast x y R t' vis vis' →
      (locateFunction d t).2.reports = [] → (locateFunction d' t').2.Quiet vis' ∧
        functionDepths (locateFunction d' t').1 = functionDepths (locateFunction d t).1

def methodsWalkAlike (R : Naming) (l l' : List (FunDecl Stmt)) : Prop :=
  ∀ ⦃ctx : Context⦄ ⦃vis vis' : Visible⦄ ⦃t t' : Scoping⦄, methodsGrammatical ctx l →
    methodsWritable l → y ∉ methodsNames l → t.Abreast x y R t' vis vis' →
      (locateMethods l t).2.reports = [] → (locateMethods l' t').2.Quiet vis' ∧
        methodsDepths (locateMethods l' t').1 = methodsDepths (locateMethods l t).1

end

section
variable {x y : String} {R R' : Naming}

namespace Stmt.WalksAlike

variable {line : Nat}

/-- A branch or the body of a loop, which declares nothing. -/
theorem inner {s s' : Stmt} (h : s.WalksAlike x y R s') (heq : s'.isDeclaration = s.isDeclaration)
    {ctx : Context} {vis vis' : Visible} {t t' : Scoping} (hg : s.Grammatical ctx)
    (hd : s.isDeclaration = false) (hw : s.Writable) (hy : y ∉ s.names)
    (ha : t.Abreast x y R t' vis vis') (hq : (s.locate t).2.reports = []) :
    (s.locate t).2.Abreast x y R (s'.locate t').2 vis vis' ∧
      (s'.locate t').1.depths = (s.locate t).1.depths := by
  obtain ⟨hright, hdepths⟩ := h hg hw hy ha hq
  have hleft := (s.locate_judges hg ha.left).quiet hq
  rw [Stmt.extend_of_not_declaration hd] at hleft
  rw [Stmt.extend_of_not_declaration (heq.trans hd)] at hright
  exact ⟨⟨ha.names, hleft, hright⟩, hdepths⟩

section
variable (hthis : y ≠ "this")
include hthis

theorem expression {e e' : Expr} (he : e.Renamed R e') :
    (Stmt.expression e line).WalksAlike x y R (.expression e' line) := by
  intro ctx vis vis' t t' hg hw hy ha hq
  refine ⟨?_, ha.locate hthis he hg hy⟩
  simp only [Stmt.locate, ha.right.locate]
  exact ha.right

theorem print {e e' : Expr} (he : e.Renamed R e') :
    (Stmt.print e line).WalksAlike x y R (.print e' line) := by
  intro ctx vis vis' t t' hg hw hy ha hq
  refine ⟨?_, ha.locate hthis he hg hy⟩
  simp only [Stmt.locate, ha.right.locate]
  exact ha.right

theorem var {decl decl' : VarDecl} (hd : decl.Renamed x y R decl' R') :
    (Stmt.var decl).WalksAlike x y R (.var decl') :=
  fun _ _ _ _ _ hg hw hy ha hq => ha.locateVar hthis hd hg (Stmt.writable_var.1 hw) hy hq

omit hthis in
theorem function {decl decl' : FunDecl Stmt}
    (h : functionWalksAlike x y (R.declare decl.name decl.name) decl decl')
    (hname : decl'.name = decl.name) :
    (Stmt.function decl).WalksAlike x y R (.function decl') := by
  intro ctx vis vis' t t' hg hw hy ha hq
  have hne : decl.name ≠ y := fun he => hy (he ▸ List.mem_cons_self)
  rw [Stmt.locate] at hq
  obtain ⟨ht, ht'⟩ := ha.untaken (.kept _) hne hq
  rw [ht] at hq
  simp only [Stmt.locate, Stmt.extend, hname, ht, ht', Bool.false_eq_true, if_false]
  exact h hg (Stmt.writable_function.1 hw) (fun hn => hy (List.mem_cons_of_mem _ hn))
    (ha.record hne) hq

theorem classDecl {name : String} {methods methods' : List (FunDecl Stmt)}
    (h : methodsWalkAlike x y (R.declare name name) methods methods') :
    (Stmt.classDecl name methods line).WalksAlike x y R (.classDecl name methods' line) := by
  intro ctx vis vis' t t' hg hw hy ha hq
  have hne : name ≠ y := fun he => hy (he ▸ List.mem_cons_self)
  rw [Stmt.locate] at hq
  obtain ⟨ht, ht'⟩ := ha.untaken (.kept _) hne hq
  rw [ht] at hq
  simp only [Stmt.locate, ht, ht', Bool.false_eq_true, if_false]
  obtain ⟨hquiet, hd⟩ := h hg (Stmt.writable_classDecl.1 hw).2
    (fun hn => hy (List.mem_cons_of_mem _ hn)) ((ha.record hne).enterClass hthis) hq
  exact ⟨hquiet.leave rfl, hd⟩

omit hthis in
theorem block {statements statements' : List Stmt}
    (h : statementsWalkAlike x y R statements statements') :
    (Stmt.block statements line).WalksAlike x y R (.block statements' line) := by
  intro ctx vis vis' t t' hg hw hy ha hq
  obtain ⟨hquiet, hd⟩ := h hg (Stmt.writable_block.1 hw) hy ha.enter hq
  exact ⟨hquiet.leave (statementsExtend_tail _ _), hd⟩

theorem ifThen {condition condition' : Expr} {thenBranch thenBranch' : Stmt}
    (hc : condition.Renamed R condition') (h : thenBranch.WalksAlike x y R thenBranch')
    (heq : thenBranch'.isDeclaration = thenBranch.isDeclaration) :
    (Stmt.ifThen condition thenBranch line).WalksAlike x y R
      (.ifThen condition' thenBranch' line) := by
  rintro ctx vis vis' t t' ⟨hgc, hd, hg⟩ hw hy ha hq
  simp only [Stmt.names, List.mem_append, not_or] at hy
  simp only [Stmt.locate, ha.left.locate] at hq
  obtain ⟨hbehind, hdt⟩ := h.inner heq hg hd (Stmt.writable_ifThen.1 hw).2 hy.2 ha hq
  simp only [Stmt.locate, ha.left.locate, ha.right.locate]
  exact ⟨hbehind.right, by simp only [Stmt.depths, ha.locate hthis hc hgc hy.1, hdt]⟩

theorem ifElse {condition condition' : Expr} {thenBranch thenBranch' elseBranch elseBranch' : Stmt}
    (hc : condition.Renamed R condition') (h : thenBranch.WalksAlike x y R thenBranch')
    (heq : thenBranch'.isDeclaration = thenBranch.isDeclaration)
    (h' : elseBranch.WalksAlike x y R elseBranch')
    (heq' : elseBranch'.isDeclaration = elseBranch.isDeclaration) :
    (Stmt.ifElse condition thenBranch elseBranch line).WalksAlike x y R
      (.ifElse condition' thenBranch' elseBranch' line) := by
  rintro ctx vis vis' t t' ⟨hgc, ⟨hd, -, hg⟩, hd', hg'⟩ hw hy ha hq
  simp only [Stmt.names, List.mem_append, not_or] at hy
  obtain ⟨-, hwt, hwe⟩ := Stmt.writable_ifElse.1 hw
  simp only [Stmt.locate, ha.left.locate] at hq
  have hqt := (elseBranch.locate_adds _).nil hq
  obtain ⟨hbehind, hdt⟩ := h.inner heq hg hd hwt hy.2.1 ha hqt
  obtain ⟨hbehind, hde⟩ := h'.inner heq' hg' hd' hwe hy.2.2 hbehind hq
  simp only [Stmt.locate, ha.left.locate, ha.right.locate]
  exact ⟨hbehind.right, by simp only [Stmt.depths, ha.locate hthis hc hgc hy.1, hdt, hde]⟩

theorem whileLoop {condition condition' : Expr} {body body' : Stmt}
    (hc : condition.Renamed R condition') (h : body.WalksAlike x y R body')
    (heq : body'.isDeclaration = body.isDeclaration) :
    (Stmt.whileLoop condition body line).WalksAlike x y R (.whileLoop condition' body' line) := by
  rintro ctx vis vis' t t' ⟨hgc, hd, hg⟩ hw hy ha hq
  simp only [Stmt.names, List.mem_append, not_or] at hy
  simp only [Stmt.locate, ha.left.locate] at hq
  obtain ⟨hbehind, hdb⟩ := h.inner heq hg hd (Stmt.writable_whileLoop.1 hw).2 hy.2 ha hq
  simp only [Stmt.locate, ha.left.locate, ha.right.locate]
  exact ⟨hbehind.right, by simp only [Stmt.depths, ha.locate hthis hc hgc hy.1, hdb]⟩

theorem forLoop {init init' : ForInit} {condition condition' increment increment' : Option Expr}
    {body body' : Stmt} (hi : init.Renamed x y R init' R')
    (hc : OptionalRenamed R' condition condition') (hn : OptionalRenamed R' increment increment')
    (h : body.WalksAlike x y R' body') (heq : body'.isDeclaration = body.isDeclaration) :
    (Stmt.forLoop init condition increment body line).WalksAlike x y R
      (.forLoop init' condition' increment' body' line) := by
  rintro ctx vis vis' t t' ⟨⟨hgi, hgc, hgn⟩, hd, hg⟩ hw hy ha hq
  simp only [Stmt.names, List.mem_append, not_or] at hy
  obtain ⟨hwi, -, -, hwb⟩ := Stmt.writable_forLoop.1 hw
  have hleave (b : Bool) (u : Scoping) : (if b then u.leave else u).reports = u.reports := by
    cases b <;> rfl
  simp only [Stmt.locate, hleave] at hq
  have hqi := ((Scoping.locate?_adds _ _).trans
    ((Scoping.locate?_adds _ _).trans (body.locate_adds _))).nil hq
  have hleft := (ha.left.locateInit init).quiet hqi
  obtain ⟨hright, hdi⟩ := ha.locateInit hthis hi hgi hwi hy.1 hqi
  have hin : Scoping.Abreast x y R' _ _ (init.extend vis) (init'.extend vis') :=
    ⟨hi.extend hy.1 ha.names, hleft, hright⟩
  rw [hleft.locate?, hleft.locate?] at hq
  obtain ⟨hbehind, hdb⟩ := h.inner heq hg hd hwb hy.2.2.2 hin hq
  simp only [Stmt.locate, hleft.locate?, hright.locate?]
  refine ⟨?_, ?_⟩
  · cases init' with
    | declare => exact hbehind.right.leave rfl
    | nothing | evaluate => exact hbehind.right
  · simp only [Stmt.depths, hdi, hin.locate? hthis hc hgc hy.2.1, hin.locate? hthis hn hgn hy.2.2.1,
      hdb]

omit hthis in
theorem loopExit (exit : LoopExit) :
    (Stmt.loopExit exit line).WalksAlike x y R (.loopExit exit line) :=
  fun _ _ _ _ _ _ _ _ ha _ => ⟨ha.right, rfl⟩

theorem returns {value value' : Option Expr} (hv : OptionalRenamed R value value') :
    (Stmt.returns value line).WalksAlike x y R (.returns value' line) := by
  rintro ctx vis vis' t t' ⟨-, hg⟩ hw hy ha hq
  refine ⟨?_, ha.locate? hthis hv hg hy⟩
  simp only [Stmt.locate, ha.right.locate?]
  exact ha.right

end
end Stmt.WalksAlike

theorem statementsWalkAlike_cons {s s' : Stmt} {rest rest' : List Stmt}
    (hs : Stmt.Renamed x y R s s' R') (h : s.WalksAlike x y R s')
    (h' : statementsWalkAlike x y R' rest rest') :
    statementsWalkAlike x y R (s :: rest) (s' :: rest') := by
  rintro ctx vis vis' t t' ⟨hg, hg'⟩ hw hy ha hq
  simp only [statementsNames, List.mem_append, not_or] at hy
  obtain ⟨hw, hw'⟩ := statementsWritable_cons.1 hw
  have hq' := (locateStatements_adds rest _).nil hq
  obtain ⟨hright, hd⟩ := h hg hw hy.1 ha hq'
  have hbehind : (s.locate t).2.Abreast x y R' (s'.locate t').2 (s.extend vis) (s'.extend vis') :=
    ⟨hs.extend hy.1 ha.names, (s.locate_judges hg ha.left).quiet hq', hright⟩
  obtain ⟨hright', hd'⟩ := h' hg' hw' hy.2 hbehind hq
  exact ⟨hright', by simp only [locateStatements, statementsDepths, hd, hd']⟩

theorem functionWalksAlike_of_body {name : String} {params params' : List String}
    {body body' : List Stmt} {line site : Nat} (hp : ParamsRenamed x y R params params' R')
    (h : statementsWalkAlike x y R' body body') :
    functionWalksAlike x y R ⟨name, params, body, line, site⟩
      ⟨name, params', body', line, site⟩ := by
  rintro ctx vis vis' t t' ⟨-, hg, -⟩ hw hy ha hq
  simp only [functionNames, List.mem_append, not_or] at hy
  have hqp := (locateStatements_adds body _).nil hq
  have hin := ha.enter.declareParams hp hy.1 line hqp
  obtain ⟨hquiet, hd⟩ := h hg (functionWritable_mk.1 hw).2.2 hy.2 hin hq
  exact ⟨hquiet.leave (statementsExtend_tail _ _), hd⟩

theorem methodsWalkAlike_cons {d d' : FunDecl Stmt} {rest rest' : List (FunDecl Stmt)}
    (h : functionWalksAlike x y R d d') (h' : methodsWalkAlike x y R rest rest') :
    methodsWalkAlike x y R (d :: rest) (d' :: rest') := by
  rintro ctx vis vis' t t' ⟨hg, hg'⟩ hw hy ha hq
  simp only [methodsNames, List.mem_append, not_or] at hy
  obtain ⟨hw, hw'⟩ := methodsWritable_cons.1 hw
  have hq' := (locateMethods_adds rest _).nil hq
  obtain ⟨hright, hd⟩ := h hg hw hy.1 ha hq'
  have hleft := (locateFunction_judges d hg ha.left).quiet hq'
  obtain ⟨hright', hd'⟩ := h' hg' hw' hy.2 ⟨ha.names, hleft, hright⟩ hq
  exact ⟨hright', by simp only [locateMethods, methodsDepths, hd, hd']⟩

mutual
theorem Stmt.Renamed.walksAlike (hthis : y ≠ "this") : {R R' : Naming} → {s s' : Stmt} →
    Stmt.Renamed x y R s s' R' → s.WalksAlike x y R s'
  | _, _, _, _, .expression h => .expression hthis h
  | _, _, _, _, .print h => .print hthis h
  | _, _, _, _, .var h => .var hthis h
  | _, _, _, _, .function h => .function (h.walksAlike hthis) h.name_eq
  | _, _, _, _, .classDecl h => .classDecl hthis (h.walkAlike hthis)
  | _, _, _, _, .block h => .block (h.walkAlike hthis)
  | _, _, _, _, .ifThen hc h => .ifThen hthis hc (h.walksAlike hthis) h.isDeclaration
  | _, _, _, _, .ifElse hc h h' =>
    .ifElse hthis hc (h.walksAlike hthis) h.isDeclaration (h'.walksAlike hthis) h'.isDeclaration
  | _, _, _, _, .whileLoop hc h => .whileLoop hthis hc (h.walksAlike hthis) h.isDeclaration
  | _, _, _, _, .forLoop hi hc hn h =>
    .forLoop hthis hi hc hn (h.walksAlike hthis) h.isDeclaration
  | _, _, _, _, .loopExit => .loopExit _
  | _, _, _, _, .returns h => .returns hthis h

theorem StatementsRenamed.walkAlike (hthis : y ≠ "this") : {R : Naming} → {l l' : List Stmt} →
    StatementsRenamed x y R l l' → statementsWalkAlike x y R l l'
  | _, _, _, .nil => fun _ _ _ _ _ _ _ _ ha _ => ⟨ha.right, rfl⟩
  | _, _, _, .cons h hrest =>
    statementsWalkAlike_cons h (h.walksAlike hthis) (hrest.walkAlike hthis)

theorem FunctionRenamed.walksAlike (hthis : y ≠ "this") : {R : Naming} → {d d' : FunDecl Stmt} →
    FunctionRenamed x y R d d' → functionWalksAlike x y R d d'
  | _, _, _, .mk hp hb => functionWalksAlike_of_body hp (hb.walkAlike hthis)

theorem MethodsRenamed.walkAlike (hthis : y ≠ "this") : {R : Naming} →
    {l l' : List (FunDecl Stmt)} → MethodsRenamed x y R l l' → methodsWalkAlike x y R l l'
  | _, _, _, .nil => fun _ _ _ _ _ _ _ _ ha _ => ⟨ha.right, rfl⟩
  | _, _, _, .cons h hrest => methodsWalkAlike_cons (h.walksAlike hthis) (hrest.walkAlike hthis)
end

end

/-- Programs that are equal but for the names of local variables are accepted alike, and their
occurrences have the same depths. -/
theorem ProgramRenamed.locate {x y : String} {l l' : List Stmt} (h : ProgramRenamed x y l l')
    (hthis : y ≠ "this") (hg : statementsGrammatical .top l) (hw : statementsWritable l)
    (hy : y ∉ statementsNames l) (hq : (locateProgram l).2 = []) :
    (locateProgram l').2 = [] ∧
      statementsDepths (locateProgram l').1 = statementsDepths (locateProgram l).1 := by
  obtain ⟨hright, hd⟩ := h.statements.walkAlike hthis hg hw hy .start hq
  exact ⟨hright.reports, hd⟩

end Lox
