import Lox.Proofs.Lexical.Names

/-! Code that does the same: equal but for depths, and but for `for` loops that are rewritten. -/
namespace Lox

open Grammar (Context)

/-- How two statements stand for each other: as they are, or in the body of a loop where only one of
them has the increment in front of each `continue`. -/
inductive Mode where
  | plain
  | left (increment : Option Expr)
  | right (increment : Option Expr)

namespace Mode

def swap : Mode → Mode
  | plain => plain
  | left increment => right increment
  | right increment => left increment

/-- The increment does not have the name. -/
def Spares (name : String) : Mode → Prop
  | plain => True
  | left increment | right increment => name ∉ optionalNames increment

theorem Spares.swap {mode : Mode} {name : String} (h : mode.Spares name) :
    mode.swap.Spares name := by
  cases mode <;> exact h

end Mode

mutual
/-- The second statement does what the first does. Their depths may differ, and loops may be
rewritten on either side. On the side that the mode names, each `continue` of the loop around has
the increment in front of it, and no name of the increment is declared. -/
inductive Stmt.Alike : Mode → Stmt → Stmt → Prop
  | expression {mode : Mode} {e e' : Expr} {line : Nat} : e.unplaced = e'.unplaced →
    Stmt.Alike mode (.expression e line) (.expression e' line)
  | print {mode : Mode} {e e' : Expr} {line : Nat} : e.unplaced = e'.unplaced →
    Stmt.Alike mode (.print e line) (.print e' line)
  | var {mode : Mode} {decl decl' : VarDecl} : decl.unplaced = decl'.unplaced →
    mode.Spares decl.name → Stmt.Alike mode (.var decl) (.var decl')
  | function {mode : Mode} {decl decl' : FunDecl Stmt} : FunctionAlike decl decl' →
    mode.Spares decl.name → Stmt.Alike mode (.function decl) (.function decl')
  | classDecl {mode : Mode} {name : String} {methods methods' : List (FunDecl Stmt)} {line : Nat} :
    MethodsAlike methods methods' → mode.Spares name →
      Stmt.Alike mode (.classDecl name methods line) (.classDecl name methods' line)
  | block {mode : Mode} {statements statements' : List Stmt} {line : Nat} :
    StatementsAlike mode statements statements' →
      Stmt.Alike mode (.block statements line) (.block statements' line)
  | ifThen {mode : Mode} {condition condition' : Expr} {thenBranch thenBranch' : Stmt}
    {line : Nat} : condition.unplaced = condition'.unplaced →
      Stmt.Alike mode thenBranch thenBranch' →
        Stmt.Alike mode (.ifThen condition thenBranch line) (.ifThen condition' thenBranch' line)
  | ifElse {mode : Mode} {condition condition' : Expr}
    {thenBranch thenBranch' elseBranch elseBranch' : Stmt} {line : Nat} :
    condition.unplaced = condition'.unplaced → Stmt.Alike mode thenBranch thenBranch' →
      Stmt.Alike mode elseBranch elseBranch' →
        Stmt.Alike mode (.ifElse condition thenBranch elseBranch line)
          (.ifElse condition' thenBranch' elseBranch' line)
  | whileLoop {mode : Mode} {condition condition' : Expr} {body body' : Stmt} {line : Nat} :
    condition.unplaced = condition'.unplaced → Stmt.Alike .plain body body' →
      Stmt.Alike mode (.whileLoop condition body line) (.whileLoop condition' body' line)
  | forLoop {mode : Mode} {init init' : ForInit}
    {condition condition' increment increment' : Option Expr} {body body' : Stmt} {line : Nat} :
    init.unplaced = init'.unplaced → condition.map Expr.unplaced = condition'.map Expr.unplaced →
      increment.map Expr.unplaced = increment'.map Expr.unplaced → Stmt.Alike .plain body body' →
        Stmt.Alike mode (.forLoop init condition increment body line)
          (.forLoop init' condition' increment' body' line)
  | loopExit {mode : Mode} {exit : LoopExit} {line : Nat} : mode = .plain ∨ exit = .toEnd →
    Stmt.Alike mode (.loopExit exit line) (.loopExit exit line)
  | returns {mode : Mode} {value value' : Option Expr} {line : Nat} :
    value.map Expr.unplaced = value'.map Expr.unplaced →
      Stmt.Alike mode (.returns value line) (.returns value' line)
  | continueRight {increment : Option Expr} {line line' : Nat} :
    Stmt.Alike (.right increment) (.loopExit .toNext line)
      (.block (turnStatements line' increment ++ [.loopExit .toNext line]) line)
  | continueLeft {increment : Option Expr} {line line' : Nat} :
    Stmt.Alike (.left increment)
      (.block (turnStatements line' increment ++ [.loopExit .toNext line]) line)
      (.loopExit .toNext line)
  | loopRight {mode : Mode} {init : ForInit} {condition increment : Option Expr}
    {body body' : Stmt} {line : Nat} : body.DeclaresNothing → body'.DeclaresNothing →
      Stmt.Alike (.right increment) body body' →
        Stmt.Alike mode (.forLoop init condition increment body line)
          (.asWhile init condition increment body' line)
  | loopLeft {mode : Mode} {init : ForInit} {condition increment : Option Expr}
    {body body' : Stmt} {line : Nat} : body.DeclaresNothing → body'.DeclaresNothing →
      Stmt.Alike (.left increment) body body' →
        Stmt.Alike mode (.asWhile init condition increment body line)
          (.forLoop init condition increment body' line)

inductive StatementsAlike : Mode → List Stmt → List Stmt → Prop
  | nil {mode : Mode} : StatementsAlike mode [] []
  | cons {mode : Mode} {s s' : Stmt} {rest rest' : List Stmt} : Stmt.Alike mode s s' →
    StatementsAlike mode rest rest' → StatementsAlike mode (s :: rest) (s' :: rest')

inductive FunctionAlike : FunDecl Stmt → FunDecl Stmt → Prop
  | mk {name : String} {params : List String} {body body' : List Stmt} {line site : Nat} :
    StatementsAlike .plain body body' →
      FunctionAlike ⟨name, params, body, line, site⟩ ⟨name, params, body', line, site⟩

inductive MethodsAlike : List (FunDecl Stmt) → List (FunDecl Stmt) → Prop
  | nil : MethodsAlike [] []
  | cons {d d' : FunDecl Stmt} {rest rest' : List (FunDecl Stmt)} : FunctionAlike d d' →
    MethodsAlike rest rest' → MethodsAlike (d :: rest) (d' :: rest')
end

/-! The two sides may be swapped. -/

theorem VarDecl.name_of_unplaced {decl decl' : VarDecl} (h : decl.unplaced = decl'.unplaced) :
    decl'.name = decl.name :=
  (congrArg VarDecl.name h).symm

namespace FunctionAlike

variable {d d' : FunDecl Stmt}

theorem name_eq (h : FunctionAlike d d') : d'.name = d.name := by
  cases h
  rfl

theorem params_eq (h : FunctionAlike d d') : d'.params = d.params := by
  cases h
  rfl

theorem body (h : FunctionAlike d d') : StatementsAlike .plain d.body d'.body := by
  cases h with
  | mk hb => exact hb

end FunctionAlike

mutual
theorem Stmt.Alike.symm : {mode : Mode} → {s s' : Stmt} → Stmt.Alike mode s s' →
    Stmt.Alike mode.swap s' s
  | _, _, _, .expression he => .expression he.symm
  | _, _, _, .print he => .print he.symm
  | _, _, _, .var hd hn => .var hd.symm (VarDecl.name_of_unplaced hd ▸ hn.swap)
  | _, _, _, .function hd hn => .function hd.symm (hd.name_eq ▸ hn.swap)
  | _, _, _, .classDecl hm hn => .classDecl hm.symm hn.swap
  | _, _, _, .block hs => .block hs.symm
  | _, _, _, .ifThen hc ht => .ifThen hc.symm ht.symm
  | _, _, _, .ifElse hc ht he => .ifElse hc.symm ht.symm he.symm
  | _, _, _, .whileLoop hc hb => .whileLoop hc.symm hb.symm
  | _, _, _, .forLoop hi hc hn hb => .forLoop hi.symm hc.symm hn.symm hb.symm
  | _, _, _, .loopExit (.inl rfl) => .loopExit (.inl rfl)
  | _, _, _, .loopExit (.inr he) => .loopExit (.inr he)
  | _, _, _, .returns hv => .returns hv.symm
  | _, _, _, .continueRight => .continueLeft
  | _, _, _, .continueLeft => .continueRight
  | _, _, _, .loopRight hd hd' hb => .loopLeft hd' hd hb.symm
  | _, _, _, .loopLeft hd hd' hb => .loopRight hd' hd hb.symm

theorem StatementsAlike.symm : {mode : Mode} → {l l' : List Stmt} → StatementsAlike mode l l' →
    StatementsAlike mode.swap l' l
  | _, _, _, .nil => .nil
  | _, _, _, .cons hs hrest => .cons hs.symm hrest.symm

theorem FunctionAlike.symm : {d d' : FunDecl Stmt} → FunctionAlike d d' → FunctionAlike d' d
  | _, _, .mk hb => .mk hb.symm

theorem MethodsAlike.symm : {l l' : List (FunDecl Stmt)} → MethodsAlike l l' → MethodsAlike l' l
  | _, _, .nil => .nil
  | _, _, .cons hd hrest => .cons hd.symm hrest.symm
end

/-! Code is like itself where it stands as it is. -/

mutual
theorem Stmt.Alike.refl : (s : Stmt) → Stmt.Alike .plain s s
  | .expression _ _ => .expression rfl
  | .print _ _ => .print rfl
  | .var _ => .var rfl trivial
  | .function decl => .function (.refl decl) trivial
  | .classDecl _ methods _ => .classDecl (.refl methods) trivial
  | .block statements _ => .block (.refl statements)
  | .ifThen _ thenBranch _ => .ifThen rfl (.refl thenBranch)
  | .ifElse _ thenBranch elseBranch _ => .ifElse rfl (.refl thenBranch) (.refl elseBranch)
  | .whileLoop _ body _ => .whileLoop rfl (.refl body)
  | .forLoop _ _ _ body _ => .forLoop rfl rfl rfl (.refl body)
  | .loopExit _ _ => .loopExit (.inl rfl)
  | .returns _ _ => .returns rfl

theorem StatementsAlike.refl : (l : List Stmt) → StatementsAlike .plain l l
  | [] => .nil
  | s :: rest => .cons (.refl s) (.refl rest)

theorem FunctionAlike.refl : (d : FunDecl Stmt) → FunctionAlike d d
  | ⟨_, _, body, _, _⟩ => .mk (.refl body)

theorem MethodsAlike.refl : (l : List (FunDecl Stmt)) → MethodsAlike l l
  | [] => .nil
  | d :: rest => .cons (.refl d) (.refl rest)
end

/-! The walk of the scopes finds depths and changes nothing else. -/

section
variable {scopes : List Scope}

theorem Occurrence.locate_name (o : Occurrence) : (o.locate scopes).name = o.name := by
  unfold Occurrence.locate
  split <;> rfl

mutual
theorem Expr.locate_unplaced : (e : Expr) → (e.locate scopes).1.unplaced = e.unplaced
  | .literal _ _ => rfl
  | .group inner _ => by simp only [Expr.locate, Expr.unplaced, inner.locate_unplaced]
  | .unary _ right _ => by simp only [Expr.locate, Expr.unplaced, right.locate_unplaced]
  | .binary left _ right _ => by
    rw [Expr.locate]
    split <;> simp only [Expr.unplaced, left.locate_unplaced, right.locate_unplaced]
  | .read o line => by
    rw [Expr.locate]
    split <;> simp only [Expr.unplaced, Occurrence.locate_name]
  | .this o _ => by simp only [Expr.locate, Expr.unplaced, Occurrence.locate_name]
  | .assign target value line => by
    rw [Expr.locate]
    split
    · simp only [Expr.unplaced, value.locate_unplaced]
    · split <;> simp only [Expr.unplaced, value.locate_unplaced, Occurrence.locate_name]
  | .get object _ _ => by simp only [Expr.locate, Expr.unplaced, object.locate_unplaced]
  | .set object _ value _ => by
    rw [Expr.locate]
    split <;> simp only [Expr.unplaced, value.locate_unplaced, object.locate_unplaced]
  | .call callee arguments _ => by
    rw [Expr.locate]
    split <;> simp only [Expr.unplaced, callee.locate_unplaced, locateArguments_unplaced arguments]

theorem locateArguments_unplaced : (es : List Expr) →
    argumentsUnplaced (locateArguments scopes es).1 = argumentsUnplaced es
  | [] => rfl
  | e :: rest => by
    rw [locateArguments]
    split <;> simp only [argumentsUnplaced, e.locate_unplaced, locateArguments_unplaced rest]
end

end

namespace Scoping

variable (s : Scoping)

theorem locate_unplaced (e : Expr) : (s.locate e).1.unplaced = e.unplaced := by
  rw [Scoping.locate]
  split <;> exact e.locate_unplaced

theorem locate?_unplaced (e? : Option Expr) :
    (s.locate? e?).1.map Expr.unplaced = e?.map Expr.unplaced := by
  cases e? with
  | none => rfl
  | some e => exact congrArg some (s.locate_unplaced e)

theorem locateVar_unplaced (decl : VarDecl) : (s.locateVar decl).1.unplaced = decl.unplaced := by
  rw [locateVar]
  split
  · rfl
  · simp only [VarDecl.unplaced, locate?_unplaced]

theorem locateInit_unplaced (init : ForInit) : (s.locateInit init).1.unplaced = init.unplaced := by
  cases init with
  | nothing => rfl
  | declare decl => exact congrArg ForInit.declare (s.locateVar_unplaced decl)
  | evaluate e => exact congrArg ForInit.evaluate (s.locate_unplaced e)

end Scoping

mutual
theorem Stmt.alike_locate : (stmt : Stmt) → (s : Scoping) →
    Stmt.Alike .plain stmt (stmt.locate s).1
  | .expression e _, s => .expression (s.locate_unplaced e).symm
  | .print e _, s => .print (s.locate_unplaced e).symm
  | .var decl, s => .var (s.locateVar_unplaced decl).symm trivial
  | .function decl, s => by
    rw [Stmt.locate]
    split
    · exact .refl _
    · exact .function (functionAlike_locate decl _) trivial
  | .classDecl _ methods _, s => by
    rw [Stmt.locate]
    split
    · exact .refl _
    · exact .classDecl (methodsAlike_locate methods _) trivial
  | .block statements _, s => .block (statementsAlike_locate statements _)
  | .ifThen condition thenBranch _, s =>
    .ifThen (s.locate_unplaced condition).symm (thenBranch.alike_locate _)
  | .ifElse condition thenBranch elseBranch _, s =>
    .ifElse (s.locate_unplaced condition).symm (thenBranch.alike_locate _)
      (elseBranch.alike_locate _)
  | .whileLoop condition body _, s =>
    .whileLoop (s.locate_unplaced condition).symm (body.alike_locate _)
  | .forLoop init condition increment body _, s =>
    .forLoop (Scoping.locateInit_unplaced _ init).symm (Scoping.locate?_unplaced _ condition).symm
      (Scoping.locate?_unplaced _ increment).symm (body.alike_locate _)
  | .loopExit _ _, _ => .refl _
  | .returns value _, s => .returns (s.locate?_unplaced value).symm

theorem statementsAlike_locate : (statements : List Stmt) → (s : Scoping) →
    StatementsAlike .plain statements (locateStatements statements s).1
  | [], _ => .nil
  | first :: rest, s => .cons (first.alike_locate s) (statementsAlike_locate rest _)

theorem functionAlike_locate : (decl : FunDecl Stmt) → (s : Scoping) →
    FunctionAlike decl (locateFunction decl s).1
  | ⟨_, _, body, _, _⟩, _ => .mk (statementsAlike_locate body _)

theorem methodsAlike_locate : (methods : List (FunDecl Stmt)) → (s : Scoping) →
    MethodsAlike methods (locateMethods methods s).1
  | [], _ => .nil
  | method :: rest, s => .cons (functionAlike_locate method s) (methodsAlike_locate rest _)
end

/-! Rewriting a loop. -/

section
variable {increment : Option Expr} {line : Nat}

theorem Stmt.continueWith_declaresNothing {turn : List Stmt} : (s : Stmt) → s.DeclaresNothing →
    (s.continueWith turn).DeclaresNothing
  | .ifThen _ thenBranch _, h => thenBranch.continueWith_declaresNothing h
  | .ifElse _ thenBranch elseBranch _, ⟨h, h'⟩ =>
    ⟨thenBranch.continueWith_declaresNothing h, elseBranch.continueWith_declaresNothing h'⟩
  | .whileLoop _ _ _, h | .forLoop _ _ _ _ _, h => h
  | .loopExit .toNext _, _ | .loopExit .toEnd _, _ | .block _ _, _ | .expression _ _, _
  | .print _ _, _ | .returns _ _, _ => trivial

mutual
theorem Stmt.alike_continueWith : (s : Stmt) →
    (∀ name ∈ s.declaredNames, name ∉ optionalNames increment) →
      Stmt.Alike (.right increment) s (s.continueWith (turnStatements line increment))
  | .expression _ _, _ => .expression rfl
  | .print _ _, _ => .print rfl
  | .var decl, h => .var rfl (h decl.name (List.mem_singleton_self _))
  | .function decl, h => .function (.refl decl) (h decl.name (List.mem_singleton_self _))
  | .classDecl name methods _, h => .classDecl (.refl methods) (h name (List.mem_singleton_self _))
  | .block statements _, h => .block (statementsAlike_continueWith statements h)
  | .ifThen _ thenBranch _, h => .ifThen rfl (thenBranch.alike_continueWith h)
  | .ifElse _ thenBranch elseBranch _, h =>
    .ifElse rfl (thenBranch.alike_continueWith fun n hn => h n (List.mem_append_left _ hn))
      (elseBranch.alike_continueWith fun n hn => h n (List.mem_append_right _ hn))
  | .whileLoop _ body _, _ => .whileLoop rfl (.refl body)
  | .forLoop _ _ _ body _, _ => .forLoop rfl rfl rfl (.refl body)
  | .loopExit .toEnd _, _ => .loopExit (.inr rfl)
  | .loopExit .toNext _, _ => .continueRight
  | .returns _ _, _ => .returns rfl

theorem statementsAlike_continueWith : (statements : List Stmt) →
    (∀ name ∈ statementsDeclaredNames statements, name ∉ optionalNames increment) →
      StatementsAlike (.right increment) statements
        (statementsContinueWith (turnStatements line increment) statements)
  | [], _ => .nil
  | s :: rest, h =>
    .cons (s.alike_continueWith fun n hn => h n (List.mem_append_left _ hn))
      (statementsAlike_continueWith rest fun n hn => h n (List.mem_append_right _ hn))
end

end

mutual
theorem Stmt.Desugars.alike {ctx : Context} : {s s' : Stmt} → s.Desugars s' → s.Grammatical ctx →
    s.Writable → Stmt.Alike .plain s s'
  | .forLoop _ _ increment body _, _, .loop h, ⟨_, hd, hb⟩, hw => by
    have hd := hb.declaresNothing hd
    have hthis := body.this_not_declared (Stmt.writable_forLoop.1 hw).2.2.2
    have hspares : ∀ name ∈ body.declaredNames, name ∉ optionalNames increment := by
      rintro name hn hi
      by_cases hname : name = "this"
      · exact hthis (hname ▸ hn)
      · exact h name hi hname hn
    exact .loopRight hd (body.continueWith_declaresNothing hd) (body.alike_continueWith hspares)
  | _, _, .inFunction h, ⟨_, hb, _⟩, hw =>
    .function (.mk (h.alike hb (functionWritable_mk.1 (Stmt.writable_function.1 hw)).2.2)) trivial
  | _, _, .inClass h, hg, hw => .classDecl (h.alike hg (Stmt.writable_classDecl.1 hw).2) trivial
  | _, _, .inBlock h, hg, hw => .block (h.alike hg (Stmt.writable_block.1 hw))
  | _, _, .inIf h, ⟨_, _, ht⟩, hw => .ifThen rfl (h.alike ht (Stmt.writable_ifThen.1 hw).2)
  | _, _, .inThen h, ⟨_, ⟨_, _, ht⟩, _⟩, hw =>
    .ifElse rfl (h.alike ht (Stmt.writable_ifElse.1 hw).2.1) (.refl _)
  | _, _, .inElse h, ⟨_, _, _, he⟩, hw =>
    .ifElse rfl (.refl _) (h.alike he (Stmt.writable_ifElse.1 hw).2.2)
  | _, _, .inWhile h, ⟨_, _, hb⟩, hw => .whileLoop rfl (h.alike hb (Stmt.writable_whileLoop.1 hw).2)
  | _, _, .inFor h, ⟨_, _, hb⟩, hw =>
    .forLoop rfl rfl rfl (h.alike hb (Stmt.writable_forLoop.1 hw).2.2.2)

theorem StatementsDesugar.alike {ctx : Context} : {l l' : List Stmt} → StatementsDesugar l l' →
    statementsGrammatical ctx l → statementsWritable l → StatementsAlike .plain l l'
  | _, _, .first h, ⟨hs, _⟩, hw => .cons (h.alike hs (statementsWritable_cons.1 hw).1) (.refl _)
  | _, _, .later h, ⟨_, hrest⟩, hw =>
    .cons (.refl _) (h.alike hrest (statementsWritable_cons.1 hw).2)

theorem MethodsDesugar.alike {ctx : Context} : {l l' : List (FunDecl Stmt)} →
    MethodsDesugar l l' → methodsGrammatical ctx l → methodsWritable l → MethodsAlike l l'
  | _, _, .first h, ⟨⟨_, hb, _⟩, _⟩, hw =>
    have hd := functionWritable_mk.1 (methodsWritable_cons.1 hw).1
    .cons (.mk (h.alike hb hd.2.2)) (.refl _)
  | _, _, .later h, ⟨_, hrest⟩, hw =>
    .cons (.refl _) (h.alike hrest (methodsWritable_cons.1 hw).2)
end

end Lox
