import Lox.Proofs.Renaming.Naming

/-! A program with other names for local variables is one that a source can have. -/
namespace Lox

open Grammar (Context)

/-! Names that one place of a program and its counterpart have for the same variable. -/

/-- The names that mean the same are those that a variable may have. -/
def Naming.Within (x y : String) (R : Naming) : Prop := ∀ n n', R n n' → Binds x y n n'

section
variable {x y : String} {R R' : Naming}

namespace Naming

theorem Binds.this_iff {a b : String} (h : Binds x y a b) (hy : y ≠ "this") :
    b = "this" ↔ a = "this" := by
  cases h with
  | kept => exact Iff.rfl
  | renamed hx => exact iff_of_false hy hx

/-- Where `y` has no meaning of its own, different variables have different names. -/
theorem Binds.ne {a b n n' : String} (h : Binds x y a b) (h' : Binds x y n n') (ha : a ≠ y)
    (hn : n ≠ y) (hne : n ≠ a) : n' ≠ b := by
  cases h with
  | kept =>
    cases h' with
    | kept => exact hne
    | renamed => exact ha.symm
  | renamed =>
    cases h' with
    | kept => exact hn
    | renamed => exact absurd rfl hne

theorem within_eq : Within x y Eq := by
  rintro n _ rfl
  exact .kept n

theorem Within.declare {a b : String} (h : R.Within x y) (hab : Binds x y a b) :
    (R.declare a b).Within x y := by
  rintro n n' (⟨rfl, rfl⟩ | ⟨-, -, hn⟩)
  · exact hab
  · exact h n n' hn

end Naming

theorem VarDecl.Renamed.within {decl decl' : VarDecl} (h : decl.Renamed x y R decl' R')
    (hR : R.Within x y) : R'.Within x y := by
  cases h with
  | mk hab => exact hR.declare hab

theorem ForInit.Renamed.within {init init' : ForInit} (h : init.Renamed x y R init' R')
    (hR : R.Within x y) : R'.Within x y := by
  cases h with
  | nothing | evaluate => exact hR
  | declare hd => exact hd.within hR

theorem ParamsRenamed.within {params params' : List String}
    (h : ParamsRenamed x y R params params' R') (hR : R.Within x y) : R'.Within x y := by
  induction h with
  | nil => exact hR
  | cons hab _ ih => exact ih (hR.declare hab)

theorem Stmt.Renamed.within {s s' : Stmt} (h : Stmt.Renamed x y R s s' R') (hR : R.Within x y) :
    R'.Within x y := by
  cases h with
  | var hd => exact hd.within hR
  | function | classDecl => exact hR.declare (.kept _)
  | _ => exact hR

/-! The grammar. -/

theorem Expr.Renamed.tightness_eq {e e' : Expr} (h : e.Renamed R e') :
    e'.tightness = e.tightness := by
  cases h <;> rfl

theorem ArgumentsRenamed.length_eq {es es' : List Expr} (h : ArgumentsRenamed R es es') :
    es'.length = es.length := by
  induction es generalizing es' with
  | nil =>
    cases h
    rfl
  | cons e rest ih =>
    cases h with
    | cons _ hrest => simp [ih hrest]

mutual
theorem Expr.Renamed.grammatical {inClass : Bool} (hy : y ≠ "this") (hR : R.Within x y) :
    {e e' : Expr} → e.Renamed R e' → e.Grammatical inClass → e'.Grammatical inClass
  | _, _, .literal, _ => trivial
  | _, _, .group h, hg => h.grammatical hy hR hg
  | _, _, .unary h, ⟨ht, hg⟩ => ⟨h.tightness_eq ▸ ht, h.grammatical hy hR hg⟩
  | _, _, .binary h h', ⟨⟨ht, hg⟩, ht', hg'⟩ =>
    ⟨⟨h.tightness_eq ▸ ht, h.grammatical hy hR hg⟩, h'.tightness_eq ▸ ht', h'.grammatical hy hR hg'⟩
  | _, _, .read ⟨_, hd⟩, hg => hd.trans hg
  | _, _, @Expr.Renamed.this _ ⟨_, _⟩ ⟨_, _⟩ _ ⟨hn, hd⟩, ⟨rfl, hin⟩ => by
    have hname := ((hR _ _ hn).this_iff hy).2 rfl
    subst hname hd
    exact ⟨rfl, hin⟩
  | _, _, .assign ⟨_, hd⟩ h, ⟨hg, hg'⟩ => ⟨hd.trans hg, h.grammatical hy hR hg'⟩
  | _, _, .get h, ⟨ht, hg⟩ => ⟨h.tightness_eq ▸ ht, h.grammatical hy hR hg⟩
  | _, _, .set h h', ⟨⟨ht, hg⟩, hg'⟩ =>
    ⟨⟨h.tightness_eq ▸ ht, h.grammatical hy hR hg⟩, h'.grammatical hy hR hg'⟩
  | _, _, .call h ha, ⟨⟨ht, hg⟩, hl, hg'⟩ =>
    ⟨⟨h.tightness_eq ▸ ht, h.grammatical hy hR hg⟩, ha.length_eq ▸ hl, ha.grammatical hy hR hg'⟩

theorem ArgumentsRenamed.grammatical {inClass : Bool} (hy : y ≠ "this") (hR : R.Within x y) :
    {es es' : List Expr} → ArgumentsRenamed R es es' → argumentsGrammatical inClass es →
      argumentsGrammatical inClass es'
  | _, _, .nil, _ => trivial
  | _, _, .cons h hrest, ⟨hg, hg'⟩ => ⟨h.grammatical hy hR hg, hrest.grammatical hy hR hg'⟩
end

theorem OptionalRenamed.grammatical {inClass : Bool} {e? e?' : Option Expr}
    (h : OptionalRenamed R e? e?') (hy : y ≠ "this") (hR : R.Within x y)
    (hg : optionalGrammatical inClass e?) : optionalGrammatical inClass e?' := by
  cases h with
  | none => trivial
  | some h => exact h.grammatical hy hR hg

theorem VarDecl.Renamed.grammatical {inClass : Bool} {decl decl' : VarDecl}
    (h : decl.Renamed x y R decl' R') (hy : y ≠ "this") (hR : R.Within x y)
    (hg : optionalGrammatical inClass decl.initializer) :
    optionalGrammatical inClass decl'.initializer := by
  cases h with
  | mk _ h => exact h.grammatical hy hR hg

theorem ForInit.Renamed.grammatical {inClass : Bool} {init init' : ForInit}
    (h : init.Renamed x y R init' R') (hy : y ≠ "this") (hR : R.Within x y)
    (hg : init.Grammatical inClass) : init'.Grammatical inClass := by
  cases h with
  | nothing => trivial
  | declare hd => exact hd.grammatical hy hR hg
  | evaluate he => exact he.grammatical hy hR hg

theorem Stmt.Renamed.isDeclaration {s s' : Stmt} (h : Stmt.Renamed x y R s s' R') :
    s'.isDeclaration = s.isDeclaration := by
  cases h <;> rfl

theorem Stmt.Renamed.takesElse : {R R' : Naming} → {s s' : Stmt} → Stmt.Renamed x y R s s' R' →
    s'.takesElse = s.takesElse
  | _, _, _, _, .ifElse _ _ he => he.takesElse
  | _, _, _, _, .whileLoop _ hb => hb.takesElse
  | _, _, _, _, .forLoop _ _ _ hb => hb.takesElse
  | _, _, _, _, .expression _ | _, _, _, _, .print _ | _, _, _, _, .var _ | _, _, _, _, .function _
  | _, _, _, _, .classDecl _ | _, _, _, _, .block _ | _, _, _, _, .ifThen _ _
  | _, _, _, _, .loopExit | _, _, _, _, .returns _ => rfl

mutual
theorem Stmt.Renamed.grammatical (hy : y ≠ "this") {ctx : Context} : {R R' : Naming} →
    {s s' : Stmt} → Stmt.Renamed x y R s s' R' → R.Within x y → s.Grammatical ctx →
      s'.Grammatical ctx
  | _, _, _, _, .expression h, hR, hg | _, _, _, _, .print h, hR, hg => h.grammatical hy hR hg
  | _, _, _, _, .var h, hR, hg => h.grammatical hy hR hg
  | _, _, _, _, .function h, hR, hg => h.grammatical hy (hR.declare (.kept _)) hg
  | _, _, _, _, .classDecl h, hR, hg => h.grammatical hy (hR.declare (.kept _)) hg
  | _, _, _, _, .block h, hR, hg => h.grammatical hy hR hg
  | _, _, _, _, .ifThen hc ht, hR, ⟨hg, hd, hgt⟩ =>
    ⟨hc.grammatical hy hR hg, ht.isDeclaration ▸ hd, ht.grammatical hy hR hgt⟩
  | _, _, _, _, .ifElse hc ht he, hR, ⟨hg, ⟨hd, hte, hgt⟩, hd', hge⟩ =>
    ⟨hc.grammatical hy hR hg, ⟨ht.isDeclaration ▸ hd, ht.takesElse ▸ hte, ht.grammatical hy hR hgt⟩,
      he.isDeclaration ▸ hd', he.grammatical hy hR hge⟩
  | _, _, _, _, .whileLoop hc hb, hR, ⟨hg, hd, hgb⟩ =>
    ⟨hc.grammatical hy hR hg, hb.isDeclaration ▸ hd, hb.grammatical hy hR hgb⟩
  | _, _, _, _, .forLoop hi hc hn hb, hR, ⟨⟨hgi, hgc, hgn⟩, hd, hgb⟩ =>
    have hR' := hi.within hR
    ⟨⟨hi.grammatical hy hR hgi, hc.grammatical hy hR' hgc, hn.grammatical hy hR' hgn⟩,
      hb.isDeclaration ▸ hd, hb.grammatical hy hR' hgb⟩
  | _, _, _, _, .loopExit, _, hg => hg
  | _, _, _, _, .returns h, hR, ⟨hf, hg⟩ => ⟨hf, h.grammatical hy hR hg⟩

theorem StatementsRenamed.grammatical (hy : y ≠ "this") {ctx : Context} : {R : Naming} →
    {l l' : List Stmt} → StatementsRenamed x y R l l' → R.Within x y →
      statementsGrammatical ctx l → statementsGrammatical ctx l'
  | _, _, _, .nil, _, _ => trivial
  | _, _, _, .cons h hrest, hR, ⟨hg, hg'⟩ =>
    ⟨h.grammatical hy hR hg, hrest.grammatical hy (h.within hR) hg'⟩

theorem FunctionRenamed.grammatical (hy : y ≠ "this") {ctx : Context} : {R : Naming} →
    {d d' : FunDecl Stmt} → FunctionRenamed x y R d d' → R.Within x y →
      functionGrammatical ctx d → functionGrammatical ctx d'
  | _, _, _, .mk hp hb, hR, ⟨hl, hg, hs⟩ =>
    ⟨hp.length_eq ▸ hl, hb.grammatical hy (hp.within hR) hg, hs⟩

theorem MethodsRenamed.grammatical (hy : y ≠ "this") {ctx : Context} : {R : Naming} →
    {l l' : List (FunDecl Stmt)} → MethodsRenamed x y R l l' → R.Within x y →
      methodsGrammatical ctx l → methodsGrammatical ctx l'
  | _, _, _, .nil, _, _ => trivial
  | _, _, _, .cons h hrest, hR, ⟨hg, hg'⟩ =>
    ⟨h.grammatical hy hR hg, hrest.grammatical hy hR hg'⟩
end

/-! Spellings: no name becomes `this`. -/

mutual
theorem Expr.Renamed.this_symbols (hy : y ≠ "this") (hR : R.Within x y) :
    {e e' : Expr} → e.Renamed R e' → (Symbol.thisName ∈ e'.symbols ↔ Symbol.thisName ∈ e.symbols)
  | _, _, .literal | _, _, .this _ => Iff.rfl
  | _, _, .group h | _, _, .unary h | _, _, .get h => by simp [Expr.symbols, h.this_symbols hy hR]
  | _, _, .binary h h' | _, _, .set h h' => by
    simp [Expr.symbols, h.this_symbols hy hR, h'.this_symbols hy hR]
  | _, _, .read ⟨hn, _⟩ => by simp [Expr.symbols, (hR _ _ hn).this_iff hy]
  | _, _, .assign ⟨hn, _⟩ h => by simp [Expr.symbols, (hR _ _ hn).this_iff hy, h.this_symbols hy hR]
  | _, _, .call h ha => by simp [Expr.symbols, h.this_symbols hy hR, ha.this_symbols hy hR]

theorem ArgumentsRenamed.this_symbols (hy : y ≠ "this") (hR : R.Within x y) :
    {es es' : List Expr} → ArgumentsRenamed R es es' →
      (Symbol.thisName ∈ argumentSymbols es' ↔ Symbol.thisName ∈ argumentSymbols es)
  | _, _, .nil => Iff.rfl
  | _, _, .cons h .nil => by simp [argumentSymbols, h.this_symbols hy hR]
  | _, _, .cons h (.cons h' hrest) => by
    have ih := (ArgumentsRenamed.cons h' hrest).this_symbols hy hR
    simp [argumentSymbols, h.this_symbols hy hR] at ih ⊢
    simp [ih]
end

theorem OptionalRenamed.this_symbols {e? e?' : Option Expr} (h : OptionalRenamed R e? e?')
    (hy : y ≠ "this") (hR : R.Within x y) :
    Symbol.thisName ∈ optionalSymbols e?' ↔ Symbol.thisName ∈ optionalSymbols e? := by
  cases h with
  | none => exact Iff.rfl
  | some h => exact h.this_symbols hy hR

theorem VarDecl.Renamed.this_symbols {decl decl' : VarDecl} (h : decl.Renamed x y R decl' R')
    (hy : y ≠ "this") (hR : R.Within x y) :
    Symbol.thisName ∈ decl'.symbols ↔ Symbol.thisName ∈ decl.symbols := by
  cases h with
  | mk hab hi =>
    cases hi with
    | none => simp [VarDecl.symbols, hab.this_iff hy]
    | some he => simp [VarDecl.symbols, hab.this_iff hy, he.this_symbols hy hR]

theorem ForInit.Renamed.this_symbols {init init' : ForInit} (h : init.Renamed x y R init' R')
    (hy : y ≠ "this") (hR : R.Within x y) :
    Symbol.thisName ∈ init'.symbols ↔ Symbol.thisName ∈ init.symbols := by
  cases h with
  | nothing => exact Iff.rfl
  | declare hd => simp [ForInit.symbols, hd.this_symbols hy hR]
  | evaluate he => simp [ForInit.symbols, he.this_symbols hy hR]

theorem ParamsRenamed.this_symbols {params params' : List String}
    (h : ParamsRenamed x y R params params' R') (hy : y ≠ "this") :
    Symbol.thisName ∈ parameterSymbols params' ↔ Symbol.thisName ∈ parameterSymbols params := by
  simp only [thisName_mem_parameterSymbols]
  induction h with
  | nil => exact Iff.rfl
  | cons hab _ ih => simp only [List.mem_cons, ih, @eq_comm _ "this", hab.this_iff hy]

mutual
theorem Stmt.Renamed.writable (hy : y ≠ "this") : {R R' : Naming} → {s s' : Stmt} →
    Stmt.Renamed x y R s s' R' → R.Within x y → s.Writable → s'.Writable
  | _, _, _, _, .expression h, hR, hw | _, _, _, _, .print h, hR, hw => by
    simpa [h.this_symbols hy hR] using hw
  | _, _, _, _, .var h, hR, hw => by simpa [h.this_symbols hy hR] using hw
  | _, _, _, _, .function h, hR, hw => by
    simp only [Stmt.writable_function] at hw ⊢
    exact h.writable hy (hR.declare (.kept _)) hw
  | _, _, _, _, .classDecl h, hR, hw => by
    simp only [Stmt.writable_classDecl] at hw ⊢
    exact ⟨hw.1, h.writable hy (hR.declare (.kept _)) hw.2⟩
  | _, _, _, _, .block h, hR, hw => by
    simp only [Stmt.writable_block] at hw ⊢
    exact h.writable hy hR hw
  | _, _, _, _, .ifThen hc ht, hR, hw => by
    simp only [Stmt.writable_ifThen, hc.this_symbols hy hR] at hw ⊢
    exact ⟨hw.1, ht.writable hy hR hw.2⟩
  | _, _, _, _, .ifElse hc ht he, hR, hw => by
    simp only [Stmt.writable_ifElse, hc.this_symbols hy hR] at hw ⊢
    exact ⟨hw.1, ht.writable hy hR hw.2.1, he.writable hy hR hw.2.2⟩
  | _, _, _, _, .whileLoop hc hb, hR, hw => by
    simp only [Stmt.writable_whileLoop, hc.this_symbols hy hR] at hw ⊢
    exact ⟨hw.1, hb.writable hy hR hw.2⟩
  | _, _, _, _, .forLoop hi hc hn hb, hR, hw => by
    have hR' := hi.within hR
    simp only [Stmt.writable_forLoop, hi.this_symbols hy hR, hc.this_symbols hy hR',
      hn.this_symbols hy hR'] at hw ⊢
    exact ⟨hw.1, hw.2.1, hw.2.2.1, hb.writable hy hR' hw.2.2.2⟩
  | _, _, _, _, .loopExit, _, hw => hw
  | _, _, _, _, .returns h, hR, hw => by simpa [h.this_symbols hy hR] using hw

theorem StatementsRenamed.writable (hy : y ≠ "this") : {R : Naming} → {l l' : List Stmt} →
    StatementsRenamed x y R l l' → R.Within x y → statementsWritable l → statementsWritable l'
  | _, _, _, .nil, _, hw => hw
  | _, _, _, .cons h hrest, hR, hw => by
    simp only [statementsWritable_cons] at hw ⊢
    exact ⟨h.writable hy hR hw.1, hrest.writable hy (h.within hR) hw.2⟩

theorem FunctionRenamed.writable (hy : y ≠ "this") : {R : Naming} → {d d' : FunDecl Stmt} →
    FunctionRenamed x y R d d' → R.Within x y → functionWritable d → functionWritable d'
  | _, _, _, .mk hp hb, hR, hw => by
    simp only [functionWritable_mk, hp.this_symbols hy] at hw ⊢
    exact ⟨hw.1, hw.2.1, hb.writable hy (hp.within hR) hw.2.2⟩

theorem MethodsRenamed.writable (hy : y ≠ "this") : {R : Naming} → {l l' : List (FunDecl Stmt)} →
    MethodsRenamed x y R l l' → R.Within x y → methodsWritable l → methodsWritable l'
  | _, _, _, .nil, _, hw => hw
  | _, _, _, .cons h hrest, hR, hw => by
    simp only [methodsWritable_cons] at hw ⊢
    exact ⟨h.writable hy hR hw.1, hrest.writable hy hR hw.2⟩
end

end

/-! The same for programs. -/

section
variable {x y : String} {l l' : List Stmt}

theorem ProgramRenamed.statements (h : ProgramRenamed x y l l') :
    StatementsRenamed x y Eq l l' := by
  induction h with
  | nil => exact .nil
  | cons hs _ ih => exact .cons hs ih

end

end Lox
