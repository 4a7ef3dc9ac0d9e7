import Lox.Proofs.Grammar.Soundness
import Mathlib.Computability.Language
import Mathlib.Order.CompletePartialOrder

/-! Origins: the token lists that a tree can be read from when every node of it has the line of the
first token of its own. No such list goes on as another one of the same tree, so that there is one
way at most to share out a token list among the nodes. -/
namespace Lox

def Kind.origins (kind : Kind) : Language Token := {w | ∃ t, w = [t] ∧ t.kind = kind}

/-- An identifier with the given name. -/
def nameOrigins (name : String) : Language Token :=
  {w | ∃ t, w = [t] ∧ t.kind = .identifier ∧ t.lexeme = name}

def Literal.origins (value : Literal) : Language Token :=
  {w | ∃ t, w = [t] ∧ t.isLiteral ∧ t.literal = value}

/-- The token lists whose first token is on the line. -/
def startingOn (line : Nat) : Language Token := {w | ∃ t ∈ w.head?, t.line = line}

mutual
def Expr.origins : Expr → Language Token
  | .literal value line => value.origins ⊓ startingOn line
  | .group inner line =>
    Kind.leftParen.origins * inner.origins * Kind.rightParen.origins ⊓ startingOn line
  | .unary op right line => op.kind.origins * right.origins ⊓ startingOn line
  | .binary left op right line =>
    left.origins * op.kind.origins * right.origins ⊓ startingOn line
  | .read o line => nameOrigins o.name ⊓ startingOn line
  | .this _ line => Kind.kwThis.origins ⊓ startingOn line
  | .assign target value line =>
    nameOrigins target.name * Kind.equal.origins * value.origins ⊓ startingOn line
  | .get object name line =>
    object.origins * Kind.dot.origins * nameOrigins name ⊓ startingOn line
  | .set object name value line =>
    object.origins * Kind.dot.origins * nameOrigins name * Kind.equal.origins * value.origins ⊓
      startingOn line
  | .call callee arguments line =>
    callee.origins * Kind.leftParen.origins * argumentsOrigins arguments *
      Kind.rightParen.origins ⊓ startingOn line

def argumentsOrigins : List Expr → Language Token
  | [] => 1
  | e :: rest =>
    e.origins * if rest.isEmpty then 1 else Kind.comma.origins * argumentsOrigins rest
end

/-- The tokens of something that may be left out. -/
def optionalOrigins : Option Expr → Language Token
  | none => 1
  | some e => e.origins

def parameterOrigins (params : List String) : Language Token :=
  ((params.map nameOrigins).intersperse Kind.comma.origins).prod

/-- A variable declaration begins with its keyword. -/
def VarDecl.origins (decl : VarDecl) : Language Token :=
  Kind.kwVar.origins * nameOrigins decl.name *
    (match decl.initializer with
    | none => 1
    | some e => Kind.equal.origins * e.origins) *
    Kind.semicolon.origins ⊓ startingOn decl.line

def ForInit.origins : ForInit → Language Token
  | nothing => Kind.semicolon.origins
  | declare decl => decl.origins
  | evaluate e => e.origins * Kind.semicolon.origins

mutual
def Stmt.origins : Stmt → Language Token
  | .expression e line => e.origins * Kind.semicolon.origins ⊓ startingOn line
  | .print e line =>
    Kind.kwPrint.origins * e.origins * Kind.semicolon.origins ⊓ startingOn line
  | .var decl => decl.origins
  | .function decl => functionOrigins Kind.kwFun.origins decl
  | .classDecl name methods line =>
    Kind.kwClass.origins * nameOrigins name * Kind.leftBrace.origins * methodsOrigins methods *
      Kind.rightBrace.origins ⊓ startingOn line
  | .block statements line =>
    Kind.leftBrace.origins * statementsOrigins statements * Kind.rightBrace.origins ⊓
      startingOn line
  | .ifThen condition thenBranch line =>
    Kind.kwIf.origins * Kind.leftParen.origins * condition.origins * Kind.rightParen.origins *
      thenBranch.origins ⊓ startingOn line
  | .ifElse condition thenBranch elseBranch line =>
    Kind.kwIf.origins * Kind.leftParen.origins * condition.origins * Kind.rightParen.origins *
      thenBranch.origins * Kind.kwElse.origins * elseBranch.origins ⊓ startingOn line
  | .whileLoop condition body line =>
    Kind.kwWhile.origins * Kind.leftParen.origins * condition.origins *
      Kind.rightParen.origins * body.origins ⊓ startingOn line
  | .forLoop init condition increment body line =>
    Kind.kwFor.origins * Kind.leftParen.origins * init.origins * optionalOrigins condition *
      Kind.semicolon.origins * optionalOrigins increment * Kind.rightParen.origins *
      body.origins ⊓ startingOn line
  | .loopExit exit line => exit.kind.origins * Kind.semicolon.origins ⊓ startingOn line
  | .returns value line =>
    Kind.kwReturn.origins * optionalOrigins value * Kind.semicolon.origins ⊓ startingOn line

def statementsOrigins : List Stmt → Language Token
  | [] => 1
  | s :: rest => s.origins * statementsOrigins rest

/-- What is in front of the name, if anything, belongs to the function. -/
def functionOrigins : Language Token → FunDecl Stmt → Language Token
  | front, ⟨name, params, body, line, _⟩ =>
    front * nameOrigins name * Kind.leftParen.origins * parameterOrigins params *
      Kind.rightParen.origins * Kind.leftBrace.origins * statementsOrigins body *
      Kind.rightBrace.origins ⊓ startingOn line

/-- Each method with `fun` in front of it or without. -/
def methodsOrigins : List (FunDecl Stmt) → Language Token
  | [] => 1
  | d :: rest => functionOrigins (1 + Kind.kwFun.origins) d * methodsOrigins rest
end

theorem Expr.origins_le (e : Expr) : e.origins ≤ startingOn e.line := by
  cases e <;> exact inf_le_right

/-- No list of the language goes on as another one. -/
def PrefixFree (l : Language Token) : Prop := ∀ u ∈ l, ∀ v ∈ l, u <+: v → u = v

namespace PrefixFree

variable {l m : Language Token}

/-- A list that begins in the language leaves it in one place. -/
theorem append_inj (h : PrefixFree l) {u u' v v' : List Token} (hu : u ∈ l) (hu' : u' ∈ l)
    (heq : u ++ v = u' ++ v') : u = u' ∧ v = v' := by
  have hsame : u = u' := by
    rcases List.prefix_or_prefix_of_prefix (List.prefix_append u v) ⟨v', heq.symm⟩ with hp | hp
    · exact h u hu u' hu' hp
    · exact (h u' hu' u hu hp).symm
  subst hsame
  exact ⟨rfl, List.append_cancel_left heq⟩

theorem one : PrefixFree 1 := by
  rintro _ rfl _ rfl -
  rfl

theorem single {p : Token → Prop} : PrefixFree {w | ∃ t, w = [t] ∧ p t} := by
  rintro _ ⟨t, rfl, -⟩ _ ⟨t', rfl, -⟩ hp
  exact hp.eq_of_length rfl

theorem inf (h : PrefixFree l) (m : Language Token) : PrefixFree (l ⊓ m) :=
  fun u hu v hv => h u hu.1 v hv.1

theorem mul (h : PrefixFree l) (h' : PrefixFree m) : PrefixFree (l * m) := by
  rintro _ ⟨u, hu, v, hv, rfl⟩ _ ⟨u', hu', v', hv', rfl⟩ ⟨behind, hb⟩
  obtain ⟨rfl, hrest⟩ := h.append_inj hu hu' (by simpa using hb)
  rw [h' v hv v' hv' ⟨behind, hrest⟩]

end PrefixFree

theorem nameOrigins_prefixFree (name : String) : PrefixFree (nameOrigins name) := .single

theorem Kind.origins_prefixFree (kind : Kind) : PrefixFree kind.origins := .single

mutual
theorem Expr.origins_prefixFree : (e : Expr) → PrefixFree e.origins
  | .literal _ _ => PrefixFree.single.inf _
  | .group inner _ =>
    (((Kind.origins_prefixFree _).mul inner.origins_prefixFree).mul
      (Kind.origins_prefixFree _)).inf _
  | .unary _ right _ => ((Kind.origins_prefixFree _).mul right.origins_prefixFree).inf _
  | .binary left _ right _ =>
    ((left.origins_prefixFree.mul (Kind.origins_prefixFree _)).mul right.origins_prefixFree).inf _
  | .read _ _ => (nameOrigins_prefixFree _).inf _
  | .this _ _ => (Kind.origins_prefixFree _).inf _
  | .assign _ value _ =>
    (((nameOrigins_prefixFree _).mul (Kind.origins_prefixFree _)).mul
      value.origins_prefixFree).inf _
  | .get object _ _ =>
    ((object.origins_prefixFree.mul (Kind.origins_prefixFree _)).mul
      (nameOrigins_prefixFree _)).inf _
  | .set object _ value _ =>
    ((((object.origins_prefixFree.mul (Kind.origins_prefixFree _)).mul
      (nameOrigins_prefixFree _)).mul (Kind.origins_prefixFree _)).mul
      value.origins_prefixFree).inf _
  | .call callee arguments _ =>
    (((callee.origins_prefixFree.mul (Kind.origins_prefixFree _)).mul
      (argumentsOrigins_prefixFree arguments)).mul (Kind.origins_prefixFree _)).inf _

theorem argumentsOrigins_prefixFree : (es : List Expr) → PrefixFree (argumentsOrigins es)
  | [] => .one
  | [e] => e.origins_prefixFree.mul .one
  | e :: e' :: rest =>
    e.origins_prefixFree.mul
      ((Kind.origins_prefixFree _).mul (argumentsOrigins_prefixFree (e' :: rest)))
end

theorem optionalOrigins_prefixFree : (e? : Option Expr) → PrefixFree (optionalOrigins e?)
  | none => .one
  | some e => e.origins_prefixFree

theorem parameterOrigins_prefixFree (params : List String) :
    PrefixFree (parameterOrigins params) := by
  rw [parameterOrigins]
  induction params with
  | nil => exact .one
  | cons param rest ih =>
    cases rest with
    | nil => exact (nameOrigins_prefixFree param).mul .one
    | cons => exact (nameOrigins_prefixFree param).mul ((Kind.origins_prefixFree _).mul ih)

theorem VarDecl.origins_prefixFree (decl : VarDecl) : PrefixFree decl.origins := by
  refine PrefixFree.inf (.mul (.mul ((Kind.origins_prefixFree _).mul (nameOrigins_prefixFree _)) ?_)
    (Kind.origins_prefixFree _)) _
  cases decl.initializer with
  | none => exact .one
  | some e => exact (Kind.origins_prefixFree _).mul e.origins_prefixFree

theorem ForInit.origins_prefixFree : (init : ForInit) → PrefixFree init.origins
  | nothing => Kind.origins_prefixFree _
  | declare decl => decl.origins_prefixFree
  | evaluate e => e.origins_prefixFree.mul (Kind.origins_prefixFree _)

/-- No name is a `fun`, so that it can be seen whether a method has one. -/
theorem methodName_prefixFree (name : String) :
    PrefixFree ((1 + Kind.kwFun.origins) * nameOrigins name) := by
  rintro _ ⟨_, rfl | ⟨t, rfl, hk⟩, _, ⟨n, rfl, hn, -⟩, rfl⟩
    _ ⟨_, rfl | ⟨t', rfl, hk'⟩, _, ⟨n', rfl, hn', -⟩, rfl⟩ hp
  · exact hp.eq_of_length rfl
  · obtain rfl : n = t' := (List.cons_prefix_cons.1 hp).1
    exact absurd (hn.symm.trans hk') (by decide)
  · obtain rfl : t = n' := (List.cons_prefix_cons.1 hp).1
    exact absurd (hn'.symm.trans hk) (by decide)
  · exact hp.eq_of_length rfl

mutual
theorem Stmt.origins_prefixFree : (s : Stmt) → PrefixFree s.origins
  | .expression e _ => (e.origins_prefixFree.mul (Kind.origins_prefixFree _)).inf _
  | .print e _ =>
    (((Kind.origins_prefixFree _).mul e.origins_prefixFree).mul (Kind.origins_prefixFree _)).inf _
  | .var decl => decl.origins_prefixFree
  | .function decl =>
    functionOrigins_prefixFree decl fun _ =>
      (Kind.origins_prefixFree _).mul (nameOrigins_prefixFree _)
  | .classDecl _ methods _ =>
    (((((Kind.origins_prefixFree _).mul (nameOrigins_prefixFree _)).mul
      (Kind.origins_prefixFree _)).mul (methodsOrigins_prefixFree methods)).mul
      (Kind.origins_prefixFree _)).inf _
  | .block statements _ =>
    (((Kind.origins_prefixFree _).mul (statementsOrigins_prefixFree statements)).mul
      (Kind.origins_prefixFree _)).inf _
  | .ifThen condition thenBranch _ =>
    (((((Kind.origins_prefixFree _).mul (Kind.origins_prefixFree _)).mul
      condition.origins_prefixFree).mul (Kind.origins_prefixFree _)).mul
      thenBranch.origins_prefixFree).inf _
  | .ifElse condition thenBranch elseBranch _ =>
    (((((((Kind.origins_prefixFree _).mul (Kind.origins_prefixFree _)).mul
      condition.origins_prefixFree).mul (Kind.origins_prefixFree _)).mul
      thenBranch.origins_prefixFree).mul (Kind.origins_prefixFree _)).mul
      elseBranch.origins_prefixFree).inf _
  | .whileLoop condition body _ =>
    (((((Kind.origins_prefixFree _).mul (Kind.origins_prefixFree _)).mul
      condition.origins_prefixFree).mul (Kind.origins_prefixFree _)).mul
      body.origins_prefixFree).inf _
  | .forLoop init condition increment body _ =>
    ((((((((Kind.origins_prefixFree _).mul (Kind.origins_prefixFree _)).mul
      init.origins_prefixFree).mul (optionalOrigins_prefixFree condition)).mul
      (Kind.origins_prefixFree _)).mul (optionalOrigins_prefixFree increment)).mul
      (Kind.origins_prefixFree _)).mul body.origins_prefixFree).inf _
  | .loopExit _ _ => ((Kind.origins_prefixFree _).mul (Kind.origins_prefixFree _)).inf _
  | .returns value _ =>
    (((Kind.origins_prefixFree _).mul (optionalOrigins_prefixFree value)).mul
      (Kind.origins_prefixFree _)).inf _

theorem statementsOrigins_prefixFree :
    (statements : List Stmt) → PrefixFree (statementsOrigins statements)
  | [] => .one
  | s :: rest => s.origins_prefixFree.mul (statementsOrigins_prefixFree rest)

theorem functionOrigins_prefixFree {front : Language Token} :
    (decl : FunDecl Stmt) → (∀ name, PrefixFree (front * nameOrigins name)) →
      PrefixFree (functionOrigins front decl)
  | ⟨name, params, body, _, _⟩, hfront =>
    (((((((hfront name).mul (Kind.origins_prefixFree _)).mul
      (parameterOrigins_prefixFree params)).mul (Kind.origins_prefixFree _)).mul
      (Kind.origins_prefixFree _)).mul (statementsOrigins_prefixFree body)).mul
      (Kind.origins_prefixFree _)).inf _

theorem methodsOrigins_prefixFree :
    (methods : List (FunDecl Stmt)) → PrefixFree (methodsOrigins methods)
  | [] => .one
  | d :: rest =>
    (functionOrigins_prefixFree d methodName_prefixFree).mul (methodsOrigins_prefixFree rest)
end

namespace Grammar

/-- From `c` to `next` the tokens of one of the lists are taken. -/
def Cursor.Spans (c next : Cursor) (origins : Language Token) : Prop :=
  ∃ used ∈ origins, c.rest = used ++ next.rest ∧ ∀ t ∈ used, t.kind ≠ .eof

namespace Cursor.Spans

variable {c mid next : Cursor} {l m : Language Token} {line : Nat}

theorem nothing (c : Cursor) : c.Spans c 1 := ⟨[], rfl, rfl, by simp⟩

theorem mono (h : c.Spans next l) (hl : l ≤ m) : c.Spans next m := by
  obtain ⟨used, hu, hrest⟩ := h
  exact ⟨used, hl hu, hrest⟩

theorem trans (h : c.Spans mid l) (h' : mid.Spans next m) : c.Spans next (l * m) := by
  obtain ⟨u, hu, hr, hi⟩ := h
  obtain ⟨v, hv, hr', hi'⟩ := h'
  refine ⟨u ++ v, Language.append_mem_mul hu hv, ?_, List.forall_mem_append.2 ⟨hi, hi'⟩⟩
  rw [hr, hr', List.append_assoc]

/-- What goes on behind a start keeps its line. -/
theorem goOn (h : c.Spans mid (l ⊓ startingOn line)) (h' : mid.Spans next m) :
    c.Spans next (l * m ⊓ startingOn line) := by
  obtain ⟨u, ⟨hu, t, ht, hline⟩, hr, hi⟩ := h
  obtain ⟨v, hv, hr', hi'⟩ := h'
  refine ⟨u ++ v, ⟨Language.append_mem_mul hu hv, t, ?_, hline⟩, ?_,
    List.forall_mem_append.2 ⟨hi, hi'⟩⟩
  · rw [List.head?_append, ht]
    rfl
  · rw [hr, hr', List.append_assoc]

theorem lined {e : Expr} (h : c.Spans next e.origins) :
    c.Spans next (e.origins ⊓ startingOn e.line) :=
  h.mono (le_inf le_rfl e.origins_le)

end Cursor.Spans

namespace Cursor.Takes

variable {c next : Cursor} {kind : Kind} {t : Token} {l : Language Token}

theorem starts (h : c.Takes kind t next) (hl : [t] ∈ l) : c.Spans next (l ⊓ startingOn t.line) := by
  obtain ⟨hk, he, hr, -⟩ := h
  exact ⟨[t], ⟨hl, t, rfl, rfl⟩, hr, by simpa [hk] using he⟩

theorem kindStarts (h : c.Takes kind t next) : c.Spans next (kind.origins ⊓ startingOn t.line) :=
  h.starts ⟨t, rfl, h.1⟩

theorem kindSpans (h : c.Takes kind t next) : c.Spans next kind.origins :=
  h.kindStarts.mono inf_le_left

theorem nameStarts (h : c.Takes .identifier t next) :
    c.Spans next (nameOrigins t.lexeme ⊓ startingOn t.line) :=
  h.starts ⟨t, rfl, h.1, rfl⟩

theorem nameSpans (h : c.Takes .identifier t next) : c.Spans next (nameOrigins t.lexeme) :=
  h.nameStarts.mono inf_le_left

end Cursor.Takes

/-- The check of a list's length takes no token. -/
theorem lengthCheck_spans {c next : Cursor} {what : Capped} {taken : Nat}
    (h : (if taken = Capped.limit then reportHere (.tooMany what) else pure ()) c =
      .done () next) : c.Spans next 1 := by
  split at h
  · cases h
    exact ⟨[], rfl, rfl, by simp⟩
  · cases h
    exact .nothing _

/-- The operators of a tier are written as the kinds that it maps to them. -/
def Tier.Faithful (tier : Tier) : Prop :=
  tier .eof = none ∧ ∀ kind op, tier kind = some op → op.kind = kind

theorem tiers_faithful : ∀ tier ∈ tiers, tier.Faithful := by
  intro tier ht
  obtain ⟨k, hk, rfl⟩ := List.mem_iff_getElem.1 ht
  exact ⟨tier_eof hk, fun kind op ho => (tier_level hk ho).2⟩

/-- What every rule for expressions takes with some fuel. A rule that goes on behind an operand
takes up what the operand spans. -/
structure ExpressionsSpan (fuel : Nat) : Prop where
  expression {ctx : Context} {c next : Cursor} {e : Expr} :
    expression fuel ctx c = .done e next → c.Spans next e.origins
  operators {ctx : Context} {c next : Cursor} {e : Expr} {ts : List Tier}
      (hts : ∀ tier ∈ ts, tier.Faithful) :
    operators fuel ctx ts c = .done e next → c.Spans next e.origins
  operatorsAfter {ctx : Context} {b c next : Cursor} {left e : Expr} {tier : Tier}
      {ts : List Tier} (hts : ∀ tier' ∈ tier :: ts, tier'.Faithful)
      (hleft : b.Spans c left.origins) :
    operatorsAfter fuel ctx tier ts left c = .done e next → b.Spans next e.origins
  unary {ctx : Context} {c next : Cursor} {e : Expr} :
    unary fuel ctx c = .done e next → c.Spans next e.origins
  callsAfter {ctx : Context} {b c next : Cursor} {callee e : Expr}
      (hcallee : b.Spans c callee.origins) :
    callsAfter fuel ctx callee c = .done e next → b.Spans next e.origins
  argumentList {ctx : Context} {c next : Cursor} {taken : Nat} {es : List Expr} :
    argumentList fuel ctx taken c = .done es next → es ≠ [] ∧ c.Spans next (argumentsOrigins es)
  primary {ctx : Context} {c next : Cursor} {e : Expr} :
    primary fuel ctx c = .done e next → c.Spans next e.origins

namespace ExpressionsSpan

variable {fuel : Nat} {ctx : Context} {b c next : Cursor} {e : Expr}

theorem zero : ExpressionsSpan 0 where
  expression h := by cases h
  operators _ h := by cases h
  operatorsAfter _ _ h := by cases h
  unary h := by cases h
  callsAfter _ h := by cases h
  argumentList h := by cases h
  primary h := by cases h

theorem expression_succ (ih : ExpressionsSpan fuel)
    (h : Grammar.expression (fuel + 1) ctx c = .done e next) : c.Spans next e.origins := by
  simp only [Grammar.expression, Rule.bind_eq_done_iff] at h
  obtain ⟨target, mid, ht, sign?, behind, hs, h⟩ := h
  have htarget := ih.operators tiers_faithful ht
  cases sign? with
  | none =>
    cases h
    obtain ⟨rfl, -⟩ := accept?_none hs
    exact htarget
  | some sign =>
    simp only [Rule.bind_eq_done_iff] at h
    obtain ⟨value, last, hv, h⟩ := h
    have hsign := (accept?_some hs).kindSpans
    -- Only a name and a property are targets; either begins the assignment.
    cases target with
    | read o line =>
      cases h
      exact (htarget.goOn hsign).goOn (ih.expression hv)
    | get object name line =>
      cases h
      exact (htarget.goOn hsign).goOn (ih.expression hv)
    | _ => cases h

theorem operators_succ (ih : ExpressionsSpan fuel) {ts : List Tier}
    (hts : ∀ tier ∈ ts, tier.Faithful)
    (h : Grammar.operators (fuel + 1) ctx ts c = .done e next) : c.Spans next e.origins := by
  cases ts with
  | nil => exact ih.unary h
  | cons tier tighter =>
    simp only [Grammar.operators, Rule.bind_eq_done_iff] at h
    obtain ⟨left, mid, hl, h⟩ := h
    have hleft := ih.operators (fun t ht => hts t (List.mem_cons_of_mem _ ht)) hl
    exact ih.operatorsAfter hts hleft h

theorem operatorsAfter_succ (ih : ExpressionsSpan fuel) {left : Expr} {tier : Tier}
    {ts : List Tier} (hts : ∀ tier' ∈ tier :: ts, tier'.Faithful)
    (hleft : b.Spans c left.origins)
    (h : Grammar.operatorsAfter (fuel + 1) ctx tier ts left c = .done e next) :
    b.Spans next e.origins := by
  obtain ⟨⟨heof, hkinds⟩, htighter⟩ := List.forall_mem_cons.1 hts
  simp only [Grammar.operatorsAfter, Rule.bind_eq_done_iff] at h
  obtain ⟨found?, mid, hf, h⟩ := h
  cases found? with
  | none =>
    cases h
    cases acceptSome?_none hf
    exact hleft
  | some found =>
    obtain ⟨op, t⟩ := found
    obtain ⟨ho, ht⟩ := acceptSome?_some heof hf
    rw [← hkinds _ _ ho] at ht
    simp only [Rule.bind_eq_done_iff] at h
    obtain ⟨right, last, hr, h⟩ := h
    have hbinary : b.Spans last (Expr.binary left op right left.line).origins :=
      (hleft.lined.goOn ht.kindSpans).goOn (ih.operators htighter hr)
    exact ih.operatorsAfter hts hbinary h

theorem unary_succ (ih : ExpressionsSpan fuel)
    (h : Grammar.unary (fuel + 1) ctx c = .done e next) : c.Spans next e.origins := by
  simp only [Grammar.unary, Rule.bind_eq_done_iff] at h
  obtain ⟨found?, mid, hf, h⟩ := h
  cases found? with
  | none =>
    cases acceptSome?_none hf
    simp only [Rule.bind_eq_done_iff] at h
    obtain ⟨callee, mid, hp, h⟩ := h
    exact ih.callsAfter (ih.primary hp) h
  | some found =>
    obtain ⟨op, t⟩ := found
    obtain ⟨ho, ht⟩ := acceptSome?_some rfl hf
    rw [← unaryTier_kind ho] at ht
    simp only [Rule.bind_eq_done_iff] at h
    obtain ⟨right, last, hr, h⟩ := h
    cases h
    exact ht.kindStarts.goOn (ih.unary hr)

theorem argumentsUpToEnd (ih : ExpressionsSpan fuel) {es : List Expr} {seen : Bool}
    (h : (if seen = true then pure [] else Grammar.argumentList fuel ctx 0) c = .done es next) :
    c.Spans next (argumentsOrigins es) := by
  cases seen with
  | true =>
    cases h
    exact .nothing _
  | false => exact (ih.argumentList h).2

theorem callsAfter_succ (ih : ExpressionsSpan fuel) {callee : Expr}
    (hcallee : b.Spans c callee.origins)
    (h : Grammar.callsAfter (fuel + 1) ctx callee c = .done e next) : b.Spans next e.origins := by
  simp only [Grammar.callsAfter, Rule.bind_eq_done_iff, choice_bind] at h
  obtain ⟨paren?, mid, hp, h⟩ := h
  cases paren? with
  | some paren =>
    simp only [Rule.bind_eq_done_iff] at h
    obtain ⟨seen, _, hs, arguments, behind, ha, close, last, hc, h⟩ := h
    obtain ⟨rfl, -⟩ := sees_done hs
    have hcall : b.Spans last (Expr.call callee arguments callee.line).origins :=
      ((hcallee.lined.goOn (accept?_some hp).kindSpans).goOn (ih.argumentsUpToEnd ha)).goOn
        (expect_done hc).kindSpans
    exact ih.callsAfter hcall h
  | none =>
    obtain ⟨rfl, -⟩ := accept?_none hp
    simp only [Rule.bind_eq_done_iff] at h
    obtain ⟨dot?, behind, hd, h⟩ := h
    cases dot? with
    | some dot =>
      simp only [Rule.bind_eq_done_iff] at h
      obtain ⟨name, last, hn, h⟩ := h
      have hget : b.Spans last (Expr.get callee name.lexeme callee.line).origins :=
        (hcallee.lined.goOn (accept?_some hd).kindSpans).goOn (expect_done hn).nameSpans
      exact ih.callsAfter hget h
    | none =>
      cases h
      obtain ⟨rfl, -⟩ := accept?_none hd
      exact hcallee

theorem argumentList_succ (ih : ExpressionsSpan fuel) {taken : Nat} {es : List Expr}
    (h : Grammar.argumentList (fuel + 1) ctx taken c = .done es next) :
    es ≠ [] ∧ c.Spans next (argumentsOrigins es) := by
  rw [Grammar.argumentList, optional_bind] at h
  simp only [Rule.bind_eq_done_iff] at h
  obtain ⟨_, checked, hc, argument, mid, ha, comma?, behind, hcomma, h⟩ := h
  have hfirst := (lengthCheck_spans hc).trans (ih.expression ha)
  rw [one_mul] at hfirst
  cases comma? with
  | none =>
    cases h
    obtain ⟨rfl, -⟩ := accept?_none hcomma
    exact ⟨by simp, hfirst.trans (.nothing _)⟩
  | some comma =>
    simp only [Rule.bind_eq_done_iff] at h
    obtain ⟨more, last, hm, h⟩ := h
    cases h
    obtain ⟨hne, hmore⟩ := ih.argumentList hm
    refine ⟨by simp, ?_⟩
    rw [argumentsOrigins, if_neg (by simpa using hne)]
    exact hfirst.trans ((accept?_some hcomma).kindSpans.trans hmore)

theorem primary_succ (ih : ExpressionsSpan fuel)
    (h : Grammar.primary (fuel + 1) ctx c = .done e next) : c.Spans next e.origins := by
  simp only [Grammar.primary, Rule.bind_eq_done_iff] at h
  obtain ⟨literal?, c₁, hl, h⟩ := h
  cases literal? with
  | some found =>
    cases h
    obtain ⟨hk, ht⟩ := acceptSome?_some rfl hl
    exact ht.starts ⟨_, rfl, by simp [Token.isLiteral, hk], rfl⟩
  | none =>
  cases acceptSome?_none hl
  simp only [Rule.bind_eq_done_iff] at h
  obtain ⟨name?, c₂, hn, h⟩ := h
  cases name? with
  | some name =>
    cases h
    exact (accept?_some hn).nameStarts
  | none =>
  obtain ⟨rfl, -⟩ := accept?_none hn
  simp only [Rule.bind_eq_done_iff] at h
  obtain ⟨this?, c₃, ht, h⟩ := h
  cases this? with
  | some this =>
    cases hclass : ctx.inClass with
    | false => simp [hclass] at h; cases h
    | true =>
      simp only [hclass, if_true] at h
      cases h
      exact (accept?_some ht).kindStarts
  | none =>
  obtain ⟨rfl, -⟩ := accept?_none ht
  simp only [Rule.bind_eq_done_iff] at h
  obtain ⟨paren?, c₄, hp, h⟩ := h
  cases paren? with
  | some paren =>
    simp only [Rule.bind_eq_done_iff] at h
    obtain ⟨inner, mid, hi, close, last, hc, h⟩ := h
    cases h
    exact ((accept?_some hp).kindStarts.goOn (ih.expression hi)).goOn (expect_done hc).kindSpans
  | none =>
    simp only [Rule.bind_eq_done_iff] at h
    obtain ⟨ended, c₅, -, h⟩ := h
    cases ended <;> cases h

end ExpressionsSpan

theorem expressionsSpan (fuel : Nat) : ExpressionsSpan fuel := by
  induction fuel with
  | zero => exact .zero
  | succ fuel ih =>
    exact {
      expression := ih.expression_succ
      operators := ih.operators_succ
      operatorsAfter := ih.operatorsAfter_succ
      unary := ih.unary_succ
      callsAfter := ih.callsAfter_succ
      argumentList := ih.argumentList_succ
      primary := ih.primary_succ }

end Grammar
end Lox
