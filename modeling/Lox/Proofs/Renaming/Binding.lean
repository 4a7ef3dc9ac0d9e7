import Lox.Proofs.Renaming.Naming

/-! A program where one local variable is renamed is equal to the former one but for that name. -/
namespace Lox

open Grammar (Context)

section
variable {x y : String}

/-! Behind the declaration. -/

theorem Occurrence.rename_renamed {o : Occurrence} (h : o.name ≠ y) :
    o.Renamed (.calling x y) (o.rename x y) := by
  unfold Occurrence.rename Occurrence.Renamed Naming.calling
  split <;> simp [h]

mutual
theorem Expr.rename_renamed : (e : Expr) → y ∉ e.names →
    e.Renamed (.calling x y) (e.rename x y)
  | .literal _ _, _ => .literal
  | .group inner _, h => .group (inner.rename_renamed h)
  | .unary _ right _, h => .unary (right.rename_renamed h)
  | .binary left _ right _, h =>
    .binary (left.rename_renamed fun hn => h (List.mem_append_left _ hn))
      (right.rename_renamed fun hn => h (List.mem_append_right _ hn))
  | .read o _, h => .read (o.rename_renamed fun hn => h (hn ▸ List.mem_singleton_self _))
  | .this o _, h => .this (o.rename_renamed fun hn => h (hn ▸ List.mem_singleton_self _))
  | .assign target value _, h =>
    .assign (target.rename_renamed fun hn => h (hn ▸ List.mem_cons_self))
      (value.rename_renamed fun hn => h (List.mem_cons_of_mem _ hn))
  | .get object _ _, h => .get (object.rename_renamed h)
  | .set object _ value _, h =>
    .set (object.rename_renamed fun hn => h (List.mem_append_left _ hn))
      (value.rename_renamed fun hn => h (List.mem_append_right _ hn))
  | .call callee arguments _, h =>
    .call (callee.rename_renamed fun hn => h (List.mem_append_left _ hn))
      (argumentsRename_renamed arguments fun hn => h (List.mem_append_right _ hn))

theorem argumentsRename_renamed : (es : List Expr) → y ∉ argumentNames es →
    ArgumentsRenamed (.calling x y) es (argumentsRename x y es)
  | [], _ => .nil
  | e :: rest, h =>
    .cons (e.rename_renamed fun hn => h (List.mem_append_left _ hn))
      (argumentsRename_renamed rest fun hn => h (List.mem_append_right _ hn))
end

theorem optionalRename_renamed : (e? : Option Expr) → y ∉ optionalNames e? →
    OptionalRenamed (.calling x y) e? (e?.map (Expr.rename x y))
  | none, _ => .none
  | some e, h => .some (e.rename_renamed h)

/-- What names mean behind code that declares `a`. -/
theorem Naming.calling_declare {a : String} (h : a ≠ y) :
    (calling x y).declare a a = if a = x then without y else calling x y := by
  split
  next hx =>
    subst hx
    exact calling_hides h
  next hx => exact (calling_keeps hx h).2

theorem VarDecl.rename_renamed (decl : VarDecl) (h : y ∉ decl.names) :
    decl.Renamed x y (.calling x y) (decl.rename x y)
      (if decl.name = x then .without y else .calling x y) := by
  have hname : decl.name ≠ y := fun hn => h (hn ▸ List.mem_cons_self)
  rw [← Naming.calling_declare hname]
  exact .mk (.kept _) (optionalRename_renamed _ fun hn => h (List.mem_cons_of_mem _ hn))

theorem ForInit.rename_renamed (init : ForInit) (h : y ∉ init.names) :
    init.Renamed x y (.calling x y) (init.rename x y)
      (if init.Declares x then .without y else .calling x y) := by
  cases init with
  | nothing => exact .nothing
  | declare decl => exact .declare (decl.rename_renamed h)
  | evaluate e => exact .evaluate (e.rename_renamed h)

theorem ParamsRenamed.of_calling (params : List String) (h : y ∉ params) :
    ParamsRenamed x y (.calling x y) params params
      (if x ∈ params then .without y else .calling x y) := by
  induction params with
  | nil => exact .nil
  | cons a rest ih =>
    rw [List.mem_cons, not_or] at h
    refine .cons (.kept a) ?_
    rw [Naming.calling_declare (Ne.symm h.1)]
    by_cases ha : a = x
    · have hkeeps (n : String) (hn : n ∈ rest) : (Naming.without y).Keeps n :=
        Naming.without_keeps fun he => h.2 (he ▸ hn)
      simpa [ha] using .refl rest hkeeps
    · simpa [ha, Ne.symm ha] using ih h.2

theorem Stmt.not_declares {s : Stmt} (h : s.isDeclaration = false) (name : String) :
    ¬ s.Declares name := by
  cases s with
  | var | function | classDecl => cases h
  | _ => exact id

mutual
theorem Stmt.rename_renamed {ctx : Context} : (s : Stmt) → s.Grammatical ctx → y ∉ s.names →
    Stmt.Renamed x y (.calling x y) s (s.rename x y)
      (if s.Declares x then .without y else .calling x y)
  | .expression e _, _, h => .expression (e.rename_renamed h)
  | .print e _, _, h => .print (e.rename_renamed h)
  | .var decl, _, h => .var (decl.rename_renamed h)
  | .function decl, hg, h => by
    have hname : decl.name ≠ y := fun hn => h (hn ▸ List.mem_cons_self)
    have hd : y ∉ functionNames decl := fun hn => h (List.mem_cons_of_mem _ hn)
    have hbody : FunctionRenamed x y ((Naming.calling x y).declare decl.name decl.name) decl
        (if decl.name = x then decl else functionRename x y decl) := by
      rw [Naming.calling_declare hname]
      split
      · exact .refl decl fun n hn => Naming.without_keeps fun he => hd (he ▸ hn)
      · exact functionRename_renamed decl hg hd
    have hs := Stmt.Renamed.function hbody
    rw [Naming.calling_declare hname] at hs
    exact hs
  | .classDecl name methods line, hg, h => by
    have hname : name ≠ y := fun hn => h (hn ▸ List.mem_cons_self)
    have hm : y ∉ methodsNames methods := fun hn => h (List.mem_cons_of_mem _ hn)
    have hbody : MethodsRenamed x y ((Naming.calling x y).declare name name) methods
        (if name = x then methods else methodsRename x y methods) := by
      rw [Naming.calling_declare hname]
      split
      · exact .refl methods fun n hn => Naming.without_keeps fun he => hm (he ▸ hn)
      · exact methodsRename_renamed methods hg hm
    have hs : Stmt.Renamed x y (.calling x y) (.classDecl name methods line) _ _ :=
      .classDecl hbody
    rw [Naming.calling_declare hname] at hs
    exact hs
  | .block statements _, hg, h => .block (statementsRename_renamed statements hg h)
  | .ifThen condition thenBranch _, ⟨_, hd, ht⟩, h => by
    simp only [Stmt.names, List.mem_append, not_or] at h
    have hthen := thenBranch.rename_renamed ht h.2
    rw [if_neg (Stmt.not_declares hd x)] at hthen
    exact .ifThen (condition.rename_renamed h.1) hthen
  | .ifElse condition thenBranch elseBranch _, ⟨_, ⟨hd, _, ht⟩, hd', he⟩, h => by
    simp only [Stmt.names, List.mem_append, not_or] at h
    have hthen := thenBranch.rename_renamed ht h.2.1
    have helse := elseBranch.rename_renamed he h.2.2
    rw [if_neg (Stmt.not_declares hd x)] at hthen
    rw [if_neg (Stmt.not_declares hd' x)] at helse
    exact .ifElse (condition.rename_renamed h.1) hthen helse
  | .whileLoop condition body _, ⟨_, hd, hb⟩, h => by
    simp only [Stmt.names, List.mem_append, not_or] at h
    have hbody := body.rename_renamed hb h.2
    rw [if_neg (Stmt.not_declares hd x)] at hbody
    exact .whileLoop (condition.rename_renamed h.1) hbody
  | .forLoop init condition increment body _, ⟨_, hd, hb⟩, h => by
    simp only [Stmt.names, List.mem_append, not_or] at h
    obtain ⟨hi, hc, hn, hbody⟩ := h
    have hinit := init.rename_renamed (x := x) hi
    unfold Stmt.rename
    split at hinit
    next hx =>
      have hkeeps {ns : List String} (hy : y ∉ ns) (n : String) (hn : n ∈ ns) :
          (Naming.without y).Keeps n := Naming.without_keeps fun he => hy (he ▸ hn)
      rw [if_pos hx]
      exact .forLoop hinit (.refl condition (hkeeps hc)) (.refl increment (hkeeps hn))
        (.refl body (hkeeps hbody))
    next hx =>
      have hround := body.rename_renamed hb hbody
      rw [if_neg (Stmt.not_declares hd x)] at hround
      rw [if_neg hx]
      exact .forLoop hinit (optionalRename_renamed condition hc)
        (optionalRename_renamed increment hn) hround
  | .loopExit _ _, _, _ => .loopExit
  | .returns value _, _, h => .returns (optionalRename_renamed value h)

theorem statementsRename_renamed {ctx : Context} : (l : List Stmt) →
    statementsGrammatical ctx l → y ∉ statementsNames l →
      StatementsRenamed x y (.calling x y) l (statementsRename x y l)
  | [], _, _ => .nil
  | s :: rest, ⟨hs, hg⟩, h => by
    simp only [statementsNames, List.mem_append, not_or] at h
    have hfirst := s.rename_renamed hs h.1
    unfold statementsRename
    refine .cons hfirst ?_
    split
    · exact .refl rest fun n hn => Naming.without_keeps fun he => h.2 (he ▸ hn)
    · exact statementsRename_renamed rest hg h.2

theorem functionRename_renamed {ctx : Context} : (d : FunDecl Stmt) →
    functionGrammatical ctx d → y ∉ functionNames d →
      FunctionRenamed x y (.calling x y) d (functionRename x y d)
  | ⟨_, params, body, _, _⟩, ⟨_, hg, _⟩, h => by
    simp only [functionNames, List.mem_append, not_or] at h
    unfold functionRename
    refine .mk (.of_calling params h.1) ?_
    split
    · exact .refl body fun n hn => Naming.without_keeps fun he => h.2 (he ▸ hn)
    · exact statementsRename_renamed body hg h.2

theorem methodsRename_renamed {ctx : Context} : (l : List (FunDecl Stmt)) →
    methodsGrammatical ctx l → y ∉ methodsNames l →
      MethodsRenamed x y (.calling x y) l (methodsRename x y l)
  | [], _, _ => .nil
  | d :: rest, ⟨hd, hg⟩, h => by
    simp only [methodsNames, List.mem_append, not_or] at h
    exact .cons (functionRename_renamed d hd h.1) (methodsRename_renamed rest hg h.2)
end

/-! The program around the declaration. -/

theorem ParamsRenamed.of_member {before behind : List String}
    (hnodup : (before ++ x :: behind).Nodup) (hfresh : y ∉ before ++ x :: behind)
    (hthis : x ≠ "this") :
    ParamsRenamed x y Eq (before ++ x :: behind) (before ++ y :: behind) (.calling x y) := by
  induction before with
  | nil =>
    obtain ⟨hx, -⟩ := List.nodup_cons.1 hnodup
    simp only [List.nil_append, List.mem_cons, not_or] at hfresh
    refine .cons (.renamed hthis) ?_
    rw [Naming.eq_calling (Ne.symm hfresh.1)]
    exact .refl behind fun n hn =>
      Naming.calling_keeps (fun he => hx (he ▸ hn)) fun he => hfresh.2 (he ▸ hn)
  | cons a rest ih =>
    refine .cons (.kept a) ?_
    rw [(Naming.eq_keeps a).2]
    exact ih (List.nodup_cons.1 hnodup).2 fun hn => hfresh (List.mem_cons_of_mem _ hn)

/-- Code that no renamed variable is visible in. -/
theorem Naming.keeps_all {ns : List String} : ∀ n ∈ ns, Keeps Eq n := fun n _ => eq_keeps n

/-- A variable that is called `y` from here on. -/
theorem VarDecl.Renamed.here {initializer : Option Expr} {line : Nat}
    (hthis : Symbol.thisName ∉ (VarDecl.mk x initializer line).symbols)
    (hfresh : y ∉ (VarDecl.mk x initializer line).names) :
    VarDecl.Renamed x y Eq ⟨x, initializer, line⟩ ⟨y, initializer, line⟩ (.calling x y) := by
  have hne : x ≠ y := fun hn => hfresh (hn ▸ List.mem_cons_self)
  rw [← Naming.eq_calling hne]
  exact .mk (.renamed (VarDecl.name_ne_this hthis)) (.refl _ Naming.keeps_all)

mutual
theorem Stmt.RenamesLocal.renamed {ctx : Context} {here : Visible} : {s s' : Stmt} →
    s.RenamesLocal x y s' → s.Grammatical ctx → s.Writable → s.WellScoped here → y ∉ s.names →
      Stmt.Renamed x y Eq s s' Eq
  | .forLoop (.declare ⟨_, _, _⟩) condition increment body _, _, .clause, ⟨_, hd, hb⟩, hw, _,
      h => by
    simp only [Stmt.names, List.mem_append, not_or] at h
    obtain ⟨hinit, hc, hn, hbody⟩ := h
    have hround := body.rename_renamed (x := x) hb hbody
    rw [if_neg (Stmt.not_declares hd x)] at hround
    have hthis := (Stmt.writable_forLoop.1 hw).1
    exact .forLoop (.declare (.here (fun hs => hthis (List.mem_cons_of_mem _ hs)) hinit))
      (optionalRename_renamed condition hc) (optionalRename_renamed increment hn) hround
  | .function decl, _, .inFunction hd, hg, hw, ⟨_, hs⟩, h =>
    .keptFunction (Naming.eq_keeps _) (hd.renamed hg (Stmt.writable_function.1 hw) hs
      fun hn => h (List.mem_cons_of_mem _ hn))
  | .classDecl _ methods _, _, .inClass hm, hg, hw, ⟨_, hs⟩, h =>
    .keptClass (Naming.eq_keeps _) (hm.renamed hg (Stmt.writable_classDecl.1 hw).2 hs
      fun hn => h (List.mem_cons_of_mem _ hn))
  | .block _ _, _, .inBlock hl, hg, hw, hs, h =>
    .block (hl.renamed hg (Stmt.writable_block.1 hw) hs h)
  | _, _, .inIf ht, ⟨_, _, hg⟩, hw, hs, h =>
    .ifThen (.refl _ Naming.keeps_all) (ht.renamed hg (Stmt.writable_ifThen.1 hw).2 hs
      fun hn => h (List.mem_append_right _ hn))
  | _, _, .inThen ht, ⟨_, ⟨_, _, hg⟩, _⟩, hw, ⟨hs, _⟩, h =>
    .ifElse (.refl _ Naming.keeps_all)
      (ht.renamed hg (Stmt.writable_ifElse.1 hw).2.1 hs fun hn => h (by simp [Stmt.names, hn]))
      (.refl _ Naming.keeps_all)
  | _, _, .inElse he, ⟨_, _, _, hg⟩, hw, ⟨_, hs⟩, h =>
    .ifElse (.refl _ Naming.keeps_all) (.refl _ Naming.keeps_all)
      (he.renamed hg (Stmt.writable_ifElse.1 hw).2.2 hs fun hn => h (by simp [Stmt.names, hn]))
  | _, _, .inWhile hb, ⟨_, _, hg⟩, hw, hs, h =>
    .whileLoop (.refl _ Naming.keeps_all) (hb.renamed hg (Stmt.writable_whileLoop.1 hw).2 hs
      fun hn => h (List.mem_append_right _ hn))
  | _, _, .inFor hb, ⟨_, _, hg⟩, hw, ⟨_, hs⟩, h =>
    .forLoop (.refl _ Naming.keeps_all) (.refl _ Naming.keeps_all) (.refl _ Naming.keeps_all)
      (hb.renamed hg (Stmt.writable_forLoop.1 hw).2.2.2 hs fun hn => h (by simp [Stmt.names, hn]))

theorem BlockRenamesLocal.renamed {ctx : Context} {here : Visible} : {l l' : List Stmt} →
    BlockRenamesLocal x y l l' → statementsGrammatical ctx l → statementsWritable l →
      statementsWellScoped here l → y ∉ statementsNames l → StatementsRenamed x y Eq l l'
  | .var ⟨_, _, _⟩ :: rest, _, .here, ⟨_, hg⟩, hw, _, h => by
    simp only [statementsNames, List.mem_append, not_or] at h
    have hthis := Stmt.writable_var.1 (statementsWritable_cons.1 hw).1
    exact .cons (.var (.here hthis h.1)) (statementsRename_renamed rest hg h.2)
  | _, _, .first hs, ⟨hg, _⟩, hw, ⟨hws, _⟩, h =>
    .cons (hs.renamed hg (statementsWritable_cons.1 hw).1 hws
      fun hn => h (List.mem_append_left _ hn)) (.refl _ Naming.keeps_all)
  | _, _, .later hl, ⟨_, hg⟩, hw, ⟨_, hws⟩, h =>
    .cons (.refl _ Naming.keeps_all) (hl.renamed hg (statementsWritable_cons.1 hw).2 hws
      fun hn => h (List.mem_append_right _ hn))

theorem FunctionRenamesLocal.renamed {ctx : Context} : {d d' : FunDecl Stmt} →
    FunctionRenamesLocal x y d d' → functionGrammatical ctx d → functionWritable d →
      functionWellScoped d → y ∉ functionNames d → FunctionRenamed x y Eq d d'
  | ⟨_, _, body, _, _⟩, _, .parameter, ⟨_, hg, _⟩, hw, ⟨hnodup, _⟩, h => by
    rw [functionNames, List.mem_append, not_or] at h
    have hparams := (functionWritable_mk.1 hw).2.1
    have hthis : x ≠ "this" := fun hn => hparams (thisName_mem_parameterSymbols.2 (by simp [hn]))
    exact .mk (.of_member hnodup h.1 hthis) (statementsRename_renamed body hg h.2)
  | _, _, .inBody hl, ⟨_, hg, _⟩, hw, ⟨_, hws⟩, h =>
    .mk (.refl _ Naming.keeps_all) (hl.renamed hg (functionWritable_mk.1 hw).2.2 hws
      fun hn => h (List.mem_append_right _ hn))

theorem MethodsRenameLocal.renamed {ctx : Context} : {l l' : List (FunDecl Stmt)} →
    MethodsRenameLocal x y l l' → methodsGrammatical ctx l → methodsWritable l →
      methodsWellScoped l → y ∉ methodsNames l → MethodsRenamed x y Eq l l'
  | _, _, .first hd, ⟨hg, _⟩, hw, ⟨hws, _⟩, h =>
    .cons (hd.renamed hg (methodsWritable_cons.1 hw).1 hws
      fun hn => h (List.mem_append_left _ hn)) (.refl _ Naming.keeps_all)
  | _, _, .later hl, ⟨_, hg⟩, hw, ⟨_, hws⟩, h =>
    .cons (.refl _ Naming.keeps_all) (hl.renamed hg (methodsWritable_cons.1 hw).2 hws
      fun hn => h (List.mem_append_right _ hn))
end
end

/-- A program of the grammar that the scopes accept, and one local variable of it renamed. -/
theorem ProgramRenamesLocal.renamed {x y : String} {l l' : List Stmt}
    (h : ProgramRenamesLocal x y l l') (hg : statementsGrammatical .top l)
    (hw : statementsWritable l) (hs : statementsWellScoped [] l) (hy : y ∉ statementsNames l) :
    ProgramRenamed x y l l' := by
  induction h with
  | first hd =>
    rw [statementsNames, List.mem_append, not_or] at hy
    exact .cons (hd.renamed hg.1 (statementsWritable_cons.1 hw).1 hs.1 hy.1)
      (List.forall₂_same.2 fun s _ => .refl s Naming.keeps_all)
  | @later s rest rest' _ ih =>
    rw [statementsNames, List.mem_append, not_or] at hy
    have hrest : statementsWellScoped [] rest := s.extend_nil ▸ hs.2
    exact .cons (.refl s Naming.keeps_all)
      (ih hg.2 (statementsWritable_cons.1 hw).2 hrest hy.2)

end Lox
