import Lox.Proofs.Scope.Cells

/-! The walk that writes into cells does what the walk does that gives back a new tree: it ends with
the same scopes and reports, and with the depths of that tree in its cells. -/
namespace Lox

open Pass (Refills)

/-! Expressions. -/

/-- From a state a walk refills cells, leaves scopes and reports alone, and ends with this fault or
with none. -/
structure Walk.Ends (x : Walk) (p : Pass) (n : Nat) (old new : List Depth)
    (fault : Option Diagnostic) : Prop where
  refills : Refills n old new p (x p).1
  scoping_eq : (x p).1.toScoping = p.toScoping
  fault_eq : (x p).2 = fault

namespace Walk

section
variable {x : Walk} {p : Pass}

theorem andThen_of_some {d : Diagnostic} (h : (x p).2 = some d) (y : Walk) :
    x.andThen y p = ((x p).1, some d) := by
  unfold andThen
  rcases hx : x p with ⟨q, fault⟩
  rw [hx] at h
  cases h
  rfl

theorem andThen_of_none (h : (x p).2 = none) (y : Walk) : x.andThen y p = y (x p).1 := by
  unfold andThen
  rcases hx : x p with ⟨q, fault⟩
  rw [hx] at h
  cases h
  rfl

end

namespace Ends

variable {x y : Walk} {p : Pass} {n : Nat} {old new old' new' : List Depth}
  {fault : Option Diagnostic} {d : Diagnostic}

theorem scopes_eq (h : x.Ends p n old new fault) : (x p).1.scopes = p.scopes :=
  congrArg Scoping.scopes h.scoping_eq

/-- The second walk goes on where the first one ends without a fault. -/
theorem goOn (h : x.Ends p n old new none) {m : Nat} (h' : y.Ends (x p).1 m old' new' fault)
    {k : Nat} {all all' : List Depth} (hall : Refills k all all' p (y (x p).1).1) :
    (x.andThen y).Ends p k all all' fault := by
  have hrun := andThen_of_none h.fault_eq y
  constructor
  · rwa [hrun]
  · rw [hrun, h'.scoping_eq, h.scoping_eq]
  · rw [hrun, h'.fault_eq]

/-- Behind a fault nothing more happens. -/
theorem halt (h : x.Ends p n old new (some d)) (y : Walk) {k : Nat} {all all' : List Depth}
    (hall : Refills k all all' p (x p).1) : (x.andThen y).Ends p k all all' (some d) := by
  have hrun := andThen_of_some h.fault_eq y
  constructor
  · rwa [hrun]
  · rw [hrun, h.scoping_eq]
  · rw [hrun]

/-- The second walk fills the cells behind those of the first. -/
theorem andThen (h : x.Ends p n old new none)
    (h' : y.Ends (x p).1 (n + old.length) old' new' fault) :
    (x.andThen y).Ends p n (old ++ old') (new ++ new') fault :=
  h.goOn h' (h.refills.append h'.refills)

/-- The second walk fills the cells in front of those of the first. -/
theorem andThenInFront (h : x.Ends p (n + old.length) old' new' none)
    (h' : y.Ends (x p).1 n old new fault) :
    (x.andThen y).Ends p n (old ++ old') (new ++ new') fault :=
  h.goOn h' (h.refills.prepend h'.refills)

theorem stop (h : x.Ends p n old new (some d)) (y : Walk) (old' : List Depth) :
    (x.andThen y).Ends p n (old ++ old') (new ++ old') (some d) :=
  h.halt y (h.refills.append (.refl _ old' _))

theorem stopInFront (h : x.Ends p (n + old.length) old' new' (some d)) (y : Walk) :
    (x.andThen y).Ends p n (old ++ old') (old ++ new') (some d) :=
  h.halt y (h.refills.prepend (.refl n old _))

end Ends

theorem idle_ends (p : Pass) (n : Nat) : Ends (fun p => (p, none)) p n [] [] none :=
  ⟨.refl n [] p, rfl, rfl⟩

theorem place_ends (o : Occurrence) (n : Nat) (p : Pass) :
    (place o n).Ends p n [o.depth] [(o.locate p.scopes).depth] none := by
  refine ⟨p.refills_place o n, ?_, rfl⟩
  simp only [place, Pass.place]
  split <;> rfl

section
variable {o : Occurrence} {line : Nat} {p : Pass}

theorem check_ends (o : Occurrence) (line : Nat) (p : Pass) (n : Nat) (depths : List Depth) :
    (check o line).Ends p n depths depths (o.fault? p.scopes line) :=
  ⟨.refl n depths p, rfl, rfl⟩

/-- An occurrence that is a fault gets no depth. -/
theorem checked_ends_of_some {d : Diagnostic} (h : o.fault? p.scopes line = some d) (n : Nat) :
    ((check o line).andThen (place o n)).Ends p n [o.depth] [o.depth] (some d) :=
  (h ▸ check_ends o line p n [o.depth]).stop (place o n) []

theorem checked_ends_of_none (h : o.fault? p.scopes line = none) (n : Nat) :
    ((check o line).andThen (place o n)).Ends p n [o.depth] [(o.locate p.scopes).depth] none :=
  (h ▸ check_ends o line p n []).andThen (place_ends o n p)

end

end Walk

mutual
theorem Expr.fill_ends : (e : Expr) → (n : Nat) → (p : Pass) →
    (e.fill n).Ends p n e.depths (e.locate p.scopes).1.depths (e.locate p.scopes).2
  | .literal _ _, n, p => Walk.idle_ends p n
  | .group inner _, n, p => inner.fill_ends n p
  | .unary _ right _, n, p => right.fill_ends n p
  | .binary left op right line, n, p => by
    have hl := left.fill_ends n p
    rw [Expr.locate]
    cases hf : (left.locate p.scopes).2 with
    | some d => exact (hf ▸ hl).stop _ right.depths
    | none =>
      have hr := right.fill_ends (n + left.depths.length) (left.fill n p).1
      exact (hf ▸ hl).andThen (hl.scopes_eq ▸ hr)
  | .read o line, n, p => by
    rw [Expr.locate]
    cases hf : o.fault? p.scopes line with
    | some d => exact Walk.checked_ends_of_some hf n
    | none => exact Walk.checked_ends_of_none hf n
  | .this o _, n, p => Walk.place_ends o n p
  | .assign target value line, n, p => by
    -- The value is walked first, and its cells are behind the one of the name.
    have hv : (value.fill (n + 1)).Ends p (n + [target.depth].length) value.depths
      (value.locate p.scopes).1.depths (value.locate p.scopes).2 := value.fill_ends (n + 1) p
    rw [Expr.locate]
    cases hf : (value.locate p.scopes).2 with
    | some d => exact (hf ▸ hv).stopInFront _
    | none =>
      rw [hf] at hv
      cases hft : target.fault? p.scopes line with
      | some d =>
        have ht := Walk.checked_ends_of_some (hv.scopes_eq.symm ▸ hft) n
        exact hv.andThenInFront ht
      | none =>
        have ht := Walk.checked_ends_of_none (hv.scopes_eq.symm ▸ hft) n
        rw [hv.scopes_eq] at ht
        exact hv.andThenInFront ht
  | .get object _ _, n, p => object.fill_ends n p
  | .set object name value line, n, p => by
    have hv := value.fill_ends (n + object.depths.length) p
    rw [Expr.locate]
    cases hf : (value.locate p.scopes).2 with
    | some d => exact (hf ▸ hv).stopInFront _
    | none =>
      have ho := object.fill_ends n (value.fill (n + object.depths.length) p).1
      exact (hf ▸ hv).andThenInFront (hv.scopes_eq ▸ ho)
  | .call callee arguments line, n, p => by
    have hc := callee.fill_ends n p
    rw [Expr.locate]
    cases hf : (callee.locate p.scopes).2 with
    | some d => exact (hf ▸ hc).stop _ (argumentDepths arguments)
    | none =>
      have ha := argumentsFill_ends arguments (n + callee.depths.length) (callee.fill n p).1
      exact (hf ▸ hc).andThen (hc.scopes_eq ▸ ha)

theorem argumentsFill_ends : (es : List Expr) → (n : Nat) → (p : Pass) →
    (argumentsFill es n).Ends p n (argumentDepths es)
      (argumentDepths (locateArguments p.scopes es).1) (locateArguments p.scopes es).2
  | [], n, p => Walk.idle_ends p n
  | e :: rest, n, p => by
    have he := e.fill_ends n p
    rw [locateArguments]
    cases hf : (e.locate p.scopes).2 with
    | some d => exact (hf ▸ he).stop _ (argumentDepths rest)
    | none =>
      have hr := argumentsFill_ends rest (n + e.depths.length) (e.fill n p).1
      exact (hf ▸ he).andThen (he.scopes_eq ▸ hr)
end

/-! Statements. -/

namespace Pass

/-- Between two states cells are refilled, and the second has these scopes and reports. -/
structure Follows (n : Nat) (old new : List Depth) (s : Scoping) (p q : Pass) : Prop where
  refills : Refills n old new p q
  scoping_eq : q.toScoping = s

namespace Follows

variable {n : Nat} {old new old' new' : List Depth} {s s' : Scoping} {p q r : Pass}

theorem refl (n : Nat) (depths : List Depth) (p : Pass) :
    Follows n depths depths p.toScoping p p :=
  ⟨.refl n depths p, rfl⟩

theorem append (h : Follows n old new s p q)
    (h' : Follows (n + old.length) old' new' s' q r) :
    Follows n (old ++ old') (new ++ new') s' p r :=
  ⟨h.refills.append h'.refills, h'.scoping_eq⟩

/-- What is done to the scopes in front of a walk. -/
theorem behind {f : Scoping → Scoping} (h : Follows n old new s (p.onScoping f) q) :
    Follows n old new s p q :=
  ⟨⟨h.refills.touches, h.refills.length_eq, h.refills.holds⟩, h.scoping_eq⟩

/-- What is done to the scopes behind a walk. -/
theorem andThen (h : Follows n old new s p q) (f : Scoping → Scoping) :
    Follows n old new (f s) p (q.onScoping f) :=
  ⟨⟨h.refills.touches, h.refills.length_eq, h.refills.holds⟩, congrArg f h.scoping_eq⟩

end Follows

variable (p : Pass)

theorem fill_follows (e : Expr) (n : Nat) :
    Follows n e.depths (p.toScoping.locate e).1.depths (p.toScoping.locate e).2 p
      (p.fill e n) := by
  obtain ⟨hrefills, hscoping, hfault⟩ := e.fill_ends n p
  have hdone : Follows n e.depths (e.locate p.scopes).1.depths p.toScoping p (e.fill n p).1 :=
    ⟨hrefills, hscoping⟩
  rw [fill, Scoping.locate, ← hfault]
  rcases hrun : e.fill n p with ⟨q, fault⟩
  rw [hrun] at hdone
  cases fault with
  | some d => exact hdone.andThen (·.report d)
  | none => exact hdone

theorem fill?_follows (e? : Option Expr) (n : Nat) :
    Follows n (optionalDepths e?) (optionalDepths (p.toScoping.locate? e?).1)
      (p.toScoping.locate? e?).2 p (p.fill? e? n) := by
  cases e? with
  | none => exact .refl n [] p
  | some e => exact p.fill_follows e n

theorem fillVar_follows (decl : VarDecl) (n : Nat) :
    Follows n (optionalDepths decl.initializer)
      (optionalDepths (p.toScoping.locateVar decl).1.initializer)
      (p.toScoping.locateVar decl).2 p (p.fillVar decl n) := by
  unfold fillVar Scoping.locateVar
  split
  · exact (Follows.refl n _ p).andThen (·.redeclared decl.name decl.line)
  · have hinit := (p.onScoping (·.record decl.name false)).fill?_follows decl.initializer n
    exact hinit.behind.andThen (·.record decl.name true)

/-- The first clause of a loop, in a scope of its own if it declares a variable. -/
theorem enterInit_follows (init : ForInit) (n : Nat) :
    let s := if init.isDeclaration then p.toScoping.enter [] else p.toScoping
    Follows n init.depths (s.locateInit init).1.depths (s.locateInit init).2 p
      ((if init.isDeclaration then p.onScoping (·.enter []) else p).fillInit init n) := by
  cases init with
  | nothing => exact .refl n [] p
  | declare decl => exact ((p.onScoping (·.enter [])).fillVar_follows decl n).behind
  | evaluate e => exact p.fill_follows e n

end Pass

open Pass (Follows)

mutual
theorem Stmt.fill_follows : (stmt : Stmt) → (n : Nat) → (p : Pass) →
    Follows n stmt.depths (stmt.locate p.toScoping).1.depths (stmt.locate p.toScoping).2 p
      (stmt.fill n p)
  | .expression e _, n, p | .print e _, n, p => p.fill_follows e n
  | .var decl, n, p => p.fillVar_follows decl n
  | .function decl, n, p => by
    rw [Stmt.fill, Stmt.locate]
    split
    · exact (Follows.refl n _ p).andThen (·.redeclared decl.name decl.line)
    · have hbody := functionFill_follows decl n (p.onScoping (·.record decl.name true))
      exact hbody.behind
  | .classDecl name methods line, n, p => by
    rw [Stmt.fill, Stmt.locate]
    split
    · exact (Follows.refl n _ p).andThen (·.redeclared name line)
    · have hmethods := methodsFill_follows methods n
        (p.onScoping fun s => (s.record name true).enter [("this", true)])
      exact hmethods.behind.andThen (·.leave)
  | .block statements _, n, p => by
    have hinside := statementsFill_follows statements n (p.onScoping (·.enter []))
    exact hinside.behind.andThen (·.leave)
  | .ifThen condition thenBranch _, n, p => by
    have hc := p.fill_follows condition n
    have ht := thenBranch.fill_follows (n + condition.depths.length) (p.fill condition n)
    rw [hc.scoping_eq] at ht
    exact hc.append ht
  | .ifElse condition thenBranch elseBranch _, n, p => by
    have hc := p.fill_follows condition n
    have ht := thenBranch.fill_follows (n + condition.depths.length) (p.fill condition n)
    rw [hc.scoping_eq] at ht
    have he := elseBranch.fill_follows (n + condition.depths.length + thenBranch.depths.length)
      (thenBranch.fill (n + condition.depths.length) (p.fill condition n))
    rw [ht.scoping_eq] at he
    exact hc.append (ht.append he)
  | .whileLoop condition body _, n, p => by
    have hc := p.fill_follows condition n
    have hb := body.fill_follows (n + condition.depths.length) (p.fill condition n)
    rw [hc.scoping_eq] at hb
    exact hc.append hb
  | .forLoop init condition increment body _, n, p => by
    -- Each clause is walked from where the one before it ends.
    let i := (if init.isDeclaration then p.onScoping (·.enter []) else p).fillInit init n
    have hi : Follows n init.depths _ _ p i := p.enterInit_follows init n
    have hc := i.fill?_follows condition (n + init.depths.length)
    rw [hi.scoping_eq] at hc
    have hk := (i.fill? condition (n + init.depths.length)).fill?_follows increment
      (n + init.depths.length + (optionalDepths condition).length)
    rw [hc.scoping_eq] at hk
    have hb := body.fill_follows (n + init.depths.length + (optionalDepths condition).length +
      (optionalDepths increment).length)
      ((i.fill? condition (n + init.depths.length)).fill? increment
        (n + init.depths.length + (optionalDepths condition).length))
    rw [hk.scoping_eq] at hb
    have hall := hi.append (hc.append (hk.append hb))
    cases init with
    | declare decl => exact hall.andThen (·.leave)
    | nothing | evaluate e => exact hall
  | .loopExit _ _, n, p => .refl n [] p
  | .returns value _, n, p => p.fill?_follows value n

theorem statementsFill_follows : (statements : List Stmt) → (n : Nat) → (p : Pass) →
    Follows n (statementsDepths statements)
      (statementsDepths (locateStatements statements p.toScoping).1)
      (locateStatements statements p.toScoping).2 p (statementsFill statements n p)
  | [], n, p => .refl n [] p
  | first :: rest, n, p => by
    have hf := first.fill_follows n p
    have hr := statementsFill_follows rest (n + first.depths.length) (first.fill n p)
    rw [hf.scoping_eq] at hr
    exact hf.append hr

theorem functionFill_follows : (decl : FunDecl Stmt) → (n : Nat) → (p : Pass) →
    Follows n (functionDepths decl) (functionDepths (locateFunction decl p.toScoping).1)
      (locateFunction decl p.toScoping).2 p (functionFill decl n p)
  | ⟨_, params, body, line, _⟩, n, p => by
    have hbody := statementsFill_follows body n
      (p.onScoping fun s => (s.enter []).declareParams line params)
    exact hbody.behind.andThen (·.leave)

theorem methodsFill_follows : (methods : List (FunDecl Stmt)) → (n : Nat) → (p : Pass) →
    Follows n (methodsDepths methods) (methodsDepths (locateMethods methods p.toScoping).1)
      (locateMethods methods p.toScoping).2 p (methodsFill methods n p)
  | [], n, p => .refl n [] p
  | method :: rest, n, p => by
    have hm := functionFill_follows method n p
    have hr := methodsFill_follows rest (n + (functionDepths method).length)
      (functionFill method n p)
    rw [hm.scoping_eq] at hr
    exact hm.append hr
end

end Lox
