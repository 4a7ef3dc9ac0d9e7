import Lox.Proofs.Renaming.Written
import Lox.Proofs.Scope.WellScoped

/-! Scopes with the names of one program and of the same with other names for local variables, and
the walk of an expression in them. -/
namespace Lox

open Grammar (Context)

/-! Scopes with the names of the one program and of the other. -/

namespace Visible

/-- What means the same is found at the same distance, and where a name may be declared, so may its
counterpart. -/
structure Renamed (x y : String) (R : Naming) (vis vis' : Visible) : Prop where
  within : R.Within x y
  nil_iff : vis' = [] ↔ vis = []
  distance {n n' : String} : R n n' → vis'.distance? n' = vis.distance? n
  takes {a b : String} : Naming.Binds x y a b → a ≠ y → vis.Takes a → vis'.Takes b

theorem takes_declare {vis : Visible} {a c : String} :
    (vis.declare a).Takes c ↔ (vis = [] ∨ c ≠ a) ∧ vis.Takes c := by
  cases vis with
  | nil => simp [declare, Takes]
  | cons names outer => simp [declare, Takes]

namespace Renamed

variable {x y : String} {R : Naming} {vis vis' : Visible}

theorem start : Renamed x y Eq [] [] where
  within := Naming.within_eq
  nil_iff := Iff.rfl
  distance _ := rfl
  takes _ _ _ := by simp [Takes]

theorem enter (h : Renamed x y R vis vis') : Renamed x y R ([] :: vis) ([] :: vis') where
  within := h.within
  nil_iff := by simp
  distance hn := by simp [distance?_cons, h.distance hn]
  takes _ _ _ := by simp [Takes]

theorem enterClass (h : Renamed x y R vis vis') (hy : y ≠ "this") :
    Renamed x y R (["this"] :: vis) (["this"] :: vis') where
  within := h.within
  nil_iff := by simp
  distance hn := by simp [distance?_cons, h.distance hn, (h.within _ _ hn).this_iff hy]
  takes hab _ ht := by
    have hb := (hab.this_iff hy).not
    simp only [Takes, List.head?_cons, Option.mem_def, Option.some.injEq, forall_eq',
      List.mem_singleton] at ht ⊢
    exact hb.2 ht

theorem declare (h : Renamed x y R vis vis') {a b : String} (hab : Naming.Binds x y a b)
    (ha : a ≠ y) : Renamed x y (R.declare a b) (vis.declare a) (vis'.declare b) where
  within := h.within.declare hab
  nil_iff := by
    have hnil := h.nil_iff
    cases vis <;> cases vis' <;> simp_all [Visible.declare]
  distance {n n'} hn := by
    rcases hn with ⟨rfl, rfl⟩ | ⟨hne, hne', hn⟩
    · by_cases hv : vis = []
      · rw [hv, h.nil_iff.2 hv]
        rfl
      · rw [distance?_declare_self hv, distance?_declare_self (h.nil_iff.not.2 hv)]
    · rw [distance?_declare_ne vis hne, distance?_declare_ne vis' hne', h.distance hn]
  takes {c d} hcd hc ht := by
    rw [takes_declare] at ht ⊢
    exact ⟨ht.1.imp h.nil_iff.2 (hab.ne hcd ha hc), h.takes hcd hc ht.2⟩

/-- The order of the names in a scope does not matter. -/
theorem congr {names names' ms ms' : List String}
    (h : Renamed x y R (names :: vis) (names' :: vis')) (hm : ∀ n, n ∈ names ↔ n ∈ ms)
    (hm' : ∀ n, n ∈ names' ↔ n ∈ ms') : Renamed x y R (ms :: vis) (ms' :: vis') where
  within := h.within
  nil_iff := by simp
  distance hn := by
    have hd := h.distance hn
    simp only [distance?_cons, hm, hm'] at hd ⊢
    exact hd
  takes hab ha ht := by
    have hb := h.takes hab ha
    simp only [Takes, List.head?_cons, Option.mem_def, Option.some.injEq, forall_eq', hm,
      hm'] at hb ht ⊢
    exact hb ht

theorem declareAll {params params' : List String} {R R' : Naming} {names names' : List String}
    (hp : ParamsRenamed x y R params params' R') (hy : y ∉ params)
    (h : Renamed x y R (names :: vis) (names' :: vis')) :
    Renamed x y R' ((params ++ names) :: vis) ((params' ++ names') :: vis') := by
  induction hp generalizing names names' with
  | nil => exact h
  | cons hab _ ih =>
    rw [List.mem_cons, not_or] at hy
    apply (ih hy.2 (h.declare hab (Ne.symm hy.1))).congr
    · simp [or_left_comm]
    · simp [or_left_comm]

end Renamed
end Visible

section
variable {x y : String} {R R' : Naming}

theorem ParamsRenamed.mem {params params' : List String} (h : ParamsRenamed x y R params params' R')
    {b : String} (hb : b ∈ params') : ∃ a ∈ params, Naming.Binds x y a b := by
  induction h with
  | nil => cases hb
  | cons hab _ ih =>
    rcases List.mem_cons.1 hb with rfl | hb
    · exact ⟨_, List.mem_cons_self, hab⟩
    · obtain ⟨a, ha, hab⟩ := ih hb
      exact ⟨a, List.mem_cons_of_mem _ ha, hab⟩

theorem ParamsRenamed.nodup {params params' : List String}
    (h : ParamsRenamed x y R params params' R') (hy : y ∉ params) (hn : params.Nodup) :
    params'.Nodup := by
  induction h with
  | nil => exact .nil
  | @cons _ _ a b rest rest' hab hrest ih =>
    rw [List.mem_cons, not_or] at hy
    obtain ⟨ha, hn⟩ := List.nodup_cons.1 hn
    refine List.nodup_cons.2 ⟨fun hb => ?_, ih hy.2 hn⟩
    obtain ⟨c, hc, hcb⟩ := hrest.mem hb
    exact hab.ne hcb (Ne.symm hy.1) (fun he => hy.2 (he ▸ hc)) (fun he => ha (he ▸ hc)) rfl

theorem VarDecl.Renamed.extend {decl decl' : VarDecl} (h : decl.Renamed x y R decl' R')
    (hy : y ∉ decl.names) {vis vis' : Visible} (hv : vis.Renamed x y R vis') :
    (vis.declare decl.name).Renamed x y R' (vis'.declare decl'.name) := by
  cases h with
  | mk hab => exact hv.declare hab fun ha => hy (ha ▸ List.mem_cons_self)

theorem ForInit.Renamed.extend {init init' : ForInit} (h : init.Renamed x y R init' R')
    (hy : y ∉ init.names) {vis vis' : Visible} (hv : vis.Renamed x y R vis') :
    (init.extend vis).Renamed x y R' (init'.extend vis') := by
  cases h with
  | nothing | evaluate => exact hv
  | declare hd => exact hd.extend hy hv.enter

theorem Stmt.Renamed.extend {s s' : Stmt} (h : Stmt.Renamed x y R s s' R') (hy : y ∉ s.names)
    {vis vis' : Visible} (hv : vis.Renamed x y R vis') :
    (s.extend vis).Renamed x y R' (s'.extend vis') := by
  cases h with
  | var hd => exact hd.extend hy hv
  | function hd =>
    simp only [Stmt.extend, hd.name_eq]
    exact hv.declare (.kept _) fun ha => hy (ha ▸ List.mem_cons_self)
  | classDecl => exact hv.declare (.kept _) fun ha => hy (ha ▸ List.mem_cons_self)
  | _ => exact hv

end

/-! Expressions. -/

/-- On scopes that agree, a name that may be read has a counterpart that may, at the same distance.
-/
structure Scope.Agree (y : String) (R : Naming) (scopes scopes' : List Scope) : Prop where
  found {n n' : String} : R n n' → n ≠ y → (∀ scope ∈ scopes.head?, scope.isPending n = false) →
    (∀ scope ∈ scopes'.head?, scope.isPending n' = false) ∧
      Scope.distance? n' scopes' = Scope.distance? n scopes
  this : ∀ scope ∈ scopes.head?, scope.isPending "this" = false

section
variable {x y : String} {R : Naming} {scopes scopes' : List Scope}

theorem Occurrence.locate_depth_of_distance {o o' : Occurrence} (hd : o'.depth = o.depth)
    (h : Scope.distance? o'.name scopes' = Scope.distance? o.name scopes) :
    (o'.locate scopes').depth = (o.locate scopes).depth := by
  unfold Occurrence.locate
  rw [h]
  split
  · rfl
  · exact hd

theorem Occurrence.fault?_none {o : Occurrence} {line : Nat} :
    o.fault? scopes line = none ↔ ∀ scope ∈ scopes.head?, scope.isPending o.name = false := by
  cases scopes with
  | nil => simp [Occurrence.fault?]
  | cons scope outer => simp [Occurrence.fault?]

/-- The second walk comes to the end, and finds the depths that the first one finds. -/
def Expr.WalksAlike (scopes scopes' : List Scope) (e e' : Expr) : Prop :=
  (e'.locate scopes').2 = none ∧ (e'.locate scopes').1.depths = (e.locate scopes).1.depths

theorem Occurrence.Renamed.locate (ha : Scope.Agree y R scopes scopes') {o o' : Occurrence}
    (h : o.Renamed R o') (hy : o.name ≠ y) {line : Nat} (hq : o.fault? scopes line = none) :
    o'.fault? scopes' line = none ∧ (o'.locate scopes').depth = (o.locate scopes).depth := by
  obtain ⟨hp, hd⟩ := ha.found h.1 hy (Occurrence.fault?_none.1 hq)
  exact ⟨Occurrence.fault?_none.2 hp, Occurrence.locate_depth_of_distance h.2 hd⟩

mutual
theorem Expr.Renamed.locate {inClass : Bool} (hthis : y ≠ "this")
    (ha : Scope.Agree y R scopes scopes') : {e e' : Expr} → e.Renamed R e' →
      e.Grammatical inClass → y ∉ e.names → (e.locate scopes).2 = none →
        e.WalksAlike scopes scopes' e'
  | _, _, .literal, _, _, _ => ⟨rfl, rfl⟩
  | _, _, .group h, hg, hy, hq => h.locate hthis ha hg hy hq
  | _, _, .unary h, hg, hy, hq => h.locate hthis ha hg.2 hy hq
  | .binary left _ right _, _, .binary h h', ⟨⟨_, hg⟩, _, hg'⟩, hy, hq => by
    simp only [Expr.names, List.mem_append, not_or] at hy
    simp only [Expr.locate] at hq
    split at hq
    next => cases hq
    next hl =>
      obtain ⟨hn, hd⟩ := h.locate hthis ha hg hy.1 hl
      obtain ⟨hn', hd'⟩ := h'.locate hthis ha hg' hy.2 hq
      simp [Expr.WalksAlike, Expr.locate, Expr.depths, hl, hn, hn', hd, hd']
  | .read o line, _, .read h, _, hy, hq => by
    have hf : o.fault? scopes line = none := by
      simp only [Expr.locate] at hq
      split at hq
      next => cases hq
      next hf => exact hf
    obtain ⟨hf', hd⟩ := h.locate ha (fun he => hy (he ▸ List.mem_singleton_self _)) hf
    simp [Expr.WalksAlike, Expr.locate, Expr.depths, hf, hf', hd]
  | .this ⟨_, _⟩ _, _, .this h, ⟨hg, _⟩, hy, _ => by
    cases hg
    have hd := (ha.found h.1 hthis.symm ha.this).2
    have hdepth := Occurrence.locate_depth_of_distance h.2 hd
    simp [Expr.WalksAlike, Expr.locate, Expr.depths, hdepth]
  | .assign target value line, _, .assign ho h, ⟨_, hg⟩, hy, hq => by
    simp only [Expr.names, List.mem_cons, not_or] at hy
    simp only [Expr.locate] at hq
    split at hq
    next => cases hq
    next hv =>
      split at hq
      next => cases hq
      next hf =>
        obtain ⟨hn, hd⟩ := h.locate hthis ha hg hy.2 hv
        obtain ⟨hf', hd'⟩ := ho.locate ha (Ne.symm hy.1) hf
        simp [Expr.WalksAlike, Expr.locate, Expr.depths, hv, hn, hf, hf', hd, hd']
  | _, _, .get h, hg, hy, hq => h.locate hthis ha hg.2 hy hq
  | .set object _ value _, _, .set h h', ⟨⟨_, hg⟩, hg'⟩, hy, hq => by
    simp only [Expr.names, List.mem_append, not_or] at hy
    simp only [Expr.locate] at hq
    split at hq
    next => cases hq
    next hv =>
      obtain ⟨hn, hd⟩ := h'.locate hthis ha hg' hy.2 hv
      obtain ⟨hn', hd'⟩ := h.locate hthis ha hg hy.1 hq
      simp [Expr.WalksAlike, Expr.locate, Expr.depths, hv, hn, hn', hd, hd']
  | .call callee arguments _, _, .call h hs, ⟨⟨_, hg⟩, _, hg'⟩, hy, hq => by
    simp only [Expr.names, List.mem_append, not_or] at hy
    simp only [Expr.locate] at hq
    split at hq
    next => cases hq
    next hc =>
      obtain ⟨hn, hd⟩ := h.locate hthis ha hg hy.1 hc
      obtain ⟨hn', hd'⟩ := hs.locate hthis ha hg' hy.2 hq
      simp [Expr.WalksAlike, Expr.locate, Expr.depths, hc, hn, hn', hd, hd']

theorem ArgumentsRenamed.locate {inClass : Bool} (hthis : y ≠ "this")
    (ha : Scope.Agree y R scopes scopes') : {es es' : List Expr} → ArgumentsRenamed R es es' →
      argumentsGrammatical inClass es → y ∉ argumentNames es →
        (locateArguments scopes es).2 = none → (locateArguments scopes' es').2 = none ∧
          argumentDepths (locateArguments scopes' es').1 =
            argumentDepths (locateArguments scopes es).1
  | _, _, .nil, _, _, _ => ⟨rfl, rfl⟩
  | e :: rest, _, .cons h hs, ⟨hg, hg'⟩, hy, hq => by
    simp only [argumentNames, List.mem_append, not_or] at hy
    simp only [locateArguments] at hq
    split at hq
    next => cases hq
    next he =>
      obtain ⟨hn, hd⟩ := h.locate hthis ha hg hy.1 he
      obtain ⟨hn', hd'⟩ := hs.locate hthis ha hg' hy.2 hq
      simp [locateArguments, argumentDepths, he, hn, hn', hd, hd']
end

end

end Lox
