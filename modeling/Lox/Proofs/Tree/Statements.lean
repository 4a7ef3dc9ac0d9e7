import Lox.Proofs.Tree.Expressions

/-! Reading the form of a statement back. -/
namespace Lox

open Grammar (Context)

/-! The reader. -/

def Form.name? : Form → Option String
  | .word text => some text
  | .list _ => none

def Form.clause? : Form → Option (Option Expr)
  | .word "_" => some none
  | f => f.expr?.map some

/-- A variable declaration behind its keyword. -/
def VarDecl.ofParts : List Form → Option VarDecl
  | [.word name] => some ⟨name, none, 0⟩
  | [.word name, e] => e.expr?.map fun e => ⟨name, some e, 0⟩
  | _ => none

def Form.init? : Form → Option ForInit
  | .word "_" => some .nothing
  | .list (.word "var" :: parts) => (VarDecl.ofParts parts).map .declare
  | f => f.expr?.map .evaluate

mutual
def Form.stmt? : Form → Option Stmt
  | .list [.word ";", e] => e.expr?.map (.expression · 0)
  | .list [.word "print", e] => e.expr?.map (.print · 0)
  | .list (.word "var" :: parts) => (VarDecl.ofParts parts).map .var
  | .list (.word "fun" :: parts) => (function? parts).map .function
  | .list (.word "class" :: .word name :: methods) => (methods? methods).map (.classDecl name · 0)
  | .list (.word "block" :: parts) => (statements? parts).map (.block · 0)
  | .list [.word "if", condition, thenBranch] => do
    return .ifThen (← condition.expr?) (← thenBranch.stmt?) 0
  | .list [.word "if", condition, thenBranch, elseBranch] => do
    return .ifElse (← condition.expr?) (← thenBranch.stmt?) (← elseBranch.stmt?) 0
  | .list [.word "while", condition, body] => do
    return .whileLoop (← condition.expr?) (← body.stmt?) 0
  | .list [.word "for", init, condition, increment, body] => do
    return .forLoop (← init.init?) (← condition.clause?) (← increment.clause?) (← body.stmt?) 0
  | .list [.word "break"] => some (.loopExit .toEnd 0)
  | .list [.word "continue"] => some (.loopExit .toNext 0)
  | .list [.word "return"] => some (.returns none 0)
  | .list [.word "return", e] => e.expr?.map fun e => .returns (some e) 0
  | _ => none

def statements? : List Form → Option (List Stmt)
  | [] => some []
  | f :: rest => do return (← f.stmt?) :: (← statements? rest)

/-- A function behind its keyword. -/
def function? : List Form → Option (FunDecl Stmt)
  | .word name :: .list params :: body => do
    return ⟨name, ← params.mapM Form.name?, ← statements? body, 0, 0⟩
  | _ => none

def methods? : List Form → Option (List (FunDecl Stmt))
  | [] => some []
  | .list (.word "fun" :: parts) :: rest => do return (← function? parts) :: (← methods? rest)
  | _ => none
end

/-! Plain statements. -/

def optionalPlain : Option Expr → Prop
  | none => True
  | some e => e.Plain

def ForInit.Plain : ForInit → Prop
  | nothing => True
  | declare decl => optionalPlain decl.initializer
  | evaluate e => e.Plain

mutual
def Stmt.Plain : Stmt → Prop
  | .expression e _ | .print e _ => e.Plain
  | .var decl => optionalPlain decl.initializer
  | .function decl => functionPlain decl
  | .classDecl _ methods _ => methodsPlain methods
  | .block statements _ => statementsPlain statements
  | .ifThen condition thenBranch _ => condition.Plain ∧ thenBranch.Plain
  | .ifElse condition thenBranch elseBranch _ =>
    condition.Plain ∧ thenBranch.Plain ∧ elseBranch.Plain
  | .whileLoop condition body _ => condition.Plain ∧ body.Plain
  | .forLoop init condition increment body _ =>
    init.Plain ∧ optionalPlain condition ∧ optionalPlain increment ∧ body.Plain
  | .loopExit _ _ => True
  | .returns value _ => optionalPlain value

def statementsPlain : List Stmt → Prop
  | [] => True
  | s :: rest => s.Plain ∧ statementsPlain rest

def functionPlain : FunDecl Stmt → Prop
  | ⟨_, _, body, _, _⟩ => statementsPlain body

def methodsPlain : List (FunDecl Stmt) → Prop
  | [] => True
  | d :: rest => functionPlain d ∧ methodsPlain rest
end

/-! Clauses and declarations. -/

section
variable {inClass : Bool} {f : Form} {e : Expr}

/-- A plain expression is not shown as an absent clause is. -/
theorem Form.Shows.ne_absent (h : f.Shows Form.expr? e.withoutLines) (hp : e.Plain) :
    f ≠ .word absentClause := by
  rintro rfl
  have habsent : Form.expr? (.word absentClause) = some (.read ⟨absentClause, .global⟩ 0) := rfl
  have he := Option.some.inj (habsent.symm.trans h.reads)
  cases e with
  | read occurrence =>
    injection he with hoccurrence
    exact hp (congrArg Occurrence.name hoccurrence).symm
  | _ => cases he

/-- No operator is written like the keyword of a variable. -/
theorem Form.Shows.ne_var (h : f.Shows Form.expr? e) (parts : List Form) :
    f ≠ .list (.word "var" :: parts) := by
  rintro rfl
  have hnone (es : List Expr) : Expr.ofParts "var" es = none := by
    rcases es with _ | ⟨_, _ | ⟨_, _ | _⟩⟩ <;> rfl
  have hreads := h.reads
  rw [Form.expr?] at hreads
  cases hparts : expressions? parts with
  | none => simp [hparts] at hreads
  | some es => simp [hparts, hnone] at hreads

theorem Form.Shows.clause (h : f.Shows Form.expr? e.withoutLines) (hp : e.Plain) :
    f.Shows Form.clause? (some e.withoutLines) := by
  refine ⟨h.proper, ?_⟩
  unfold Form.clause?
  split
  next => exact absurd rfl (h.ne_absent hp)
  next => rw [h.reads, Option.map_some]

theorem Form.Shows.evaluate (h : f.Shows Form.expr? e.withoutLines) (hp : e.Plain) :
    f.Shows Form.init? (.evaluate e.withoutLines) := by
  refine ⟨h.proper, ?_⟩
  unfold Form.init?
  split
  next => exact absurd rfl (h.ne_absent hp)
  next parts => exact absurd rfl (h.ne_var parts)
  next => rw [h.reads, Option.map_some]

theorem isWord_absentClause : IsWord absentClause := by decide

theorem isWord_var : IsWord "var" := by decide

theorem isWord_fun : IsWord "fun" := by decide

theorem clauseForm_shows {e? : Option Expr} (hg : optionalGrammatical inClass e?)
    (ha : ∀ a ∈ optionalSymbols e?, a.Legible) (hp : optionalPlain e?) :
    (clauseForm e?).Shows Form.clause? (e?.map Expr.withoutLines) := by
  cases e? with
  | none => exact ⟨isWord_absentClause, rfl⟩
  | some e => exact (e.form_shows hg ha hp).clause hp

theorem VarDecl.parts_show {decl : VarDecl} (hg : optionalGrammatical inClass decl.initializer)
    (ha : ∀ a ∈ decl.symbols, a.Legible) (hp : optionalPlain decl.initializer) :
    FormsShow VarDecl.ofParts decl.parts decl.withoutLines := by
  obtain ⟨name, e?, line⟩ := decl
  have hname : IsWord name :=
    ((ha (.identifier name) (by simp [VarDecl.symbols])).name rfl).isWord
  cases e? with
  | none => exact ⟨⟨hname, trivial⟩, rfl⟩
  | some e =>
    have he := e.form_shows hg (fun a h => ha a (by simp [VarDecl.symbols, h])) hp
    refine ⟨⟨hname, he.proper, trivial⟩, ?_⟩
    rw [VarDecl.parts, VarDecl.ofParts, he.reads]
    rfl

theorem ForInit.form_shows {init : ForInit} (hg : init.Grammatical inClass)
    (ha : ∀ a ∈ init.symbols, a.Legible) (hp : init.Plain) :
    init.form.Shows Form.init? init.withoutLines := by
  cases init with
  | nothing => exact ⟨isWord_absentClause, rfl⟩
  | declare decl =>
    have hparts := VarDecl.parts_show hg (fun a h => ha a (List.mem_cons_of_mem _ h)) hp
    refine ⟨⟨isWord_var, hparts.proper⟩, ?_⟩
    rw [ForInit.form, VarDecl.form, Form.init?, hparts.reads]
    rfl
  | evaluate e =>
    have he := e.form_shows hg (fun a h => ha a (List.mem_append_left _ h)) hp
    exact he.evaluate hp

end

theorem formsProper_words {words : List String} (h : ∀ word ∈ words, IsWord word) :
    formsProper (words.map .word) := by
  induction words with
  | nil => trivial
  | cons word rest ih =>
    rw [List.forall_mem_cons] at h
    exact ⟨h.1, ih h.2⟩

theorem mapM_name?_words (words : List String) :
    (words.map Form.word).mapM Form.name? = some words := by
  induction words with
  | nil => rfl
  | cons word rest ih => simp [Form.name?, ih]

theorem mem_parameterSymbols {params : List String} {name : String} (h : name ∈ params) :
    .identifier name ∈ parameterSymbols params := by
  unfold parameterSymbols
  induction params with
  | nil => cases h
  | cons param rest ih =>
    cases rest with
    | nil => exact List.mem_singleton.2 (congrArg Symbol.identifier (List.mem_singleton.1 h))
    | cons next rest =>
      rw [List.map_cons, List.map_cons, List.intersperse_cons_cons]
      obtain rfl | h := List.mem_cons.1 h
      · exact List.mem_cons_self
      · exact List.mem_cons_of_mem _ (List.mem_cons_of_mem _ (ih h))

/-! Statements. -/

theorem Form.Shows.keyword {head : String} {parts : List Form} {s : Stmt} (hhead : IsWord head)
    (hparts : formsProper parts) (hreads : Form.stmt? (.list (.word head :: parts)) = some s) :
    Form.Shows Form.stmt? (.list (.word head :: parts)) s :=
  ⟨⟨hhead, hparts⟩, hreads⟩

mutual
theorem Stmt.form_shows {ctx : Context} {w : List Symbol} (ha : ∀ a ∈ w, a.Legible) :
    (s : Stmt) → s.Grammatical ctx → s.SpelledAs w → s.Plain →
      s.form.Shows Form.stmt? s.withoutLines
  | .expression e _, hg, hw, hp => by
    obtain rfl : w = _ := hw
    have he := e.form_shows hg (fun a h => ha a (by simp [h])) hp
    exact .keyword (by decide) ⟨he.proper, trivial⟩ (by rw [Form.stmt?, he.reads]; rfl)
  | .print e _, hg, hw, hp => by
    obtain rfl : w = _ := hw
    have he := e.form_shows hg (fun a h => ha a (by simp [h])) hp
    exact .keyword (by decide) ⟨he.proper, trivial⟩ (by rw [Form.stmt?, he.reads]; rfl)
  | .var decl, hg, hw, hp => by
    obtain rfl : w = _ := hw
    have hparts := VarDecl.parts_show hg (fun a h => ha a (by simp [h])) hp
    exact .keyword (by decide) hparts.proper (by rw [Form.stmt?, hparts.reads]; rfl)
  | .function decl, hg, ⟨v, hv, hw⟩, hp => by
    have hparts := functionParts_show (fun a h => ha a (by simp [hw, h])) decl hg hv hp
    exact .keyword (by decide) hparts.proper (by rw [Form.stmt?, hparts.reads]; rfl)
  | .classDecl name methods _, hg, ⟨v, hv, hw⟩, hp => by
    have hname : IsWord name := ((ha (.identifier name) (by simp [hw])).name rfl).isWord
    have hmethods := methods_form_shows (fun a h => ha a (by simp [hw, h])) methods hg hv hp
    exact .keyword (by decide) ⟨hname, hmethods.proper⟩ (by rw [Form.stmt?, hmethods.reads]; rfl)
  | .block statements _, hg, ⟨v, hv, hw⟩, hp => by
    have hs := statements_form_shows (fun a h => ha a (by simp [hw, h])) statements hg hv hp
    exact .keyword (by decide) hs.proper (by rw [Form.stmt?, hs.reads]; rfl)
  | .ifThen condition thenBranch _, ⟨hg, _, hg'⟩, ⟨v, hv, hw⟩, ⟨hp, hp'⟩ => by
    have hc := condition.form_shows hg (fun a h => ha a (by simp [hw, h])) hp
    have ht := thenBranch.form_shows (fun a h => ha a (by simp [hw, h])) hg' hv hp'
    exact .keyword (by decide) ⟨hc.proper, ht.proper, trivial⟩
      (by rw [Form.stmt?, hc.reads, ht.reads]; rfl)
  | .ifElse condition thenBranch elseBranch _, ⟨hg, ⟨_, _, hg'⟩, _, hg''⟩, ⟨u, v, hu, hv, hw⟩,
      ⟨hp, hp', hp''⟩ => by
    have hc := condition.form_shows hg (fun a h => ha a (by simp [hw, h])) hp
    have ht := thenBranch.form_shows (fun a h => ha a (by simp [hw, h])) hg' hu hp'
    have he := elseBranch.form_shows (fun a h => ha a (by simp [hw, h])) hg'' hv hp''
    exact .keyword (by decide) ⟨hc.proper, ht.proper, he.proper, trivial⟩
      (by rw [Form.stmt?, hc.reads, ht.reads, he.reads]; rfl)
  | .whileLoop condition body _, ⟨hg, _, hg'⟩, ⟨v, hv, hw⟩, ⟨hp, hp'⟩ => by
    have hc := condition.form_shows hg (fun a h => ha a (by simp [hw, h])) hp
    have hb := body.form_shows (fun a h => ha a (by simp [hw, h])) hg' hv hp'
    exact .keyword (by decide) ⟨hc.proper, hb.proper, trivial⟩
      (by rw [Form.stmt?, hc.reads, hb.reads]; rfl)
  | .forLoop init condition increment body _, ⟨⟨hg, hg', hg''⟩, _, hgb⟩, ⟨v, hv, hw⟩,
      ⟨hp, hp', hp'', hpb⟩ => by
    have hi := ForInit.form_shows hg (fun a h => ha a (by simp [hw, h])) hp
    have hc := clauseForm_shows hg' (fun a h => ha a (by simp [hw, h])) hp'
    have ht := clauseForm_shows hg'' (fun a h => ha a (by simp [hw, h])) hp''
    have hb := body.form_shows (fun a h => ha a (by simp [hw, h])) hgb hv hpb
    exact .keyword (by decide) ⟨hi.proper, hc.proper, ht.proper, hb.proper, trivial⟩
      (by rw [Form.stmt?, hi.reads, hc.reads, ht.reads, hb.reads]; rfl)
  | .loopExit exit _, _, _, _ => by
    cases exit <;> exact .keyword (by decide) trivial rfl
  | .returns none _, _, _, _ => .keyword (by decide) trivial rfl
  | .returns (some e) _, ⟨_, hg⟩, hw, hp => by
    obtain rfl : w = _ := hw
    have he := e.form_shows hg (fun a h => ha a (by simp [optionalSymbols, h])) hp
    exact .keyword (by decide) ⟨he.proper, trivial⟩ (by rw [Form.stmt?, he.reads]; rfl)

theorem statements_form_shows {ctx : Context} {w : List Symbol} (ha : ∀ a ∈ w, a.Legible) :
    (ss : List Stmt) → statementsGrammatical ctx ss → statementsSpelledAs ss w →
      statementsPlain ss → FormsShow statements? (statementForms ss) (statementsWithoutLines ss)
  | [], _, _, _ => ⟨trivial, rfl⟩
  | s :: rest, ⟨hg, hg'⟩, ⟨u, v, hu, hv, hw⟩, ⟨hp, hp'⟩ => by
    have hs := s.form_shows (fun a h => ha a (by simp [hw, h])) hg hu hp
    have hrest := statements_form_shows (fun a h => ha a (by simp [hw, h])) rest hg' hv hp'
    refine ⟨⟨hs.proper, hrest.proper⟩, ?_⟩
    rw [statementForms, statements?, hs.reads, hrest.reads]
    rfl

theorem functionParts_show {ctx : Context} {w : List Symbol} (ha : ∀ a ∈ w, a.Legible) :
    (d : FunDecl Stmt) → functionGrammatical ctx d → functionSpelledAs d w → functionPlain d →
      FormsShow function? (functionParts d) (functionWithoutLines d)
  | ⟨name, params, body, _, _⟩, ⟨_, hg, rfl⟩, ⟨v, hv, hw⟩, hp => by
    have hname : IsWord name := ((ha (.identifier name) (by simp [hw])).name rfl).isWord
    have hparams : ∀ param ∈ params, IsWord param := fun param h =>
      ((ha (.identifier param) (by simp [hw, mem_parameterSymbols h])).name rfl).isWord
    have hbody := statements_form_shows (fun a h => ha a (by simp [hw, h])) body hg hv hp
    refine ⟨⟨hname, formsProper_words hparams, hbody.proper⟩, ?_⟩
    rw [functionParts, function?, mapM_name?_words, hbody.reads]
    rfl

theorem methods_form_shows {ctx : Context} {w : List Symbol} (ha : ∀ a ∈ w, a.Legible) :
    (ds : List (FunDecl Stmt)) → methodsGrammatical ctx ds → methodsSpelledAs ds w →
      methodsPlain ds → FormsShow methods? (functionForms ds) (methodsWithoutLines ds)
  | [], _, _, _ => ⟨trivial, rfl⟩
  | d :: rest, ⟨hg, hg'⟩, ⟨u, v, hu, hv, hw⟩, ⟨hp, hp'⟩ => by
    have hmem : ∀ a ∈ u ++ v, a.Legible := by
      obtain rfl | rfl := hw
      · exact ha
      · exact fun a h => ha a (List.mem_cons_of_mem _ h)
    have hd := functionParts_show (fun a h => hmem a (List.mem_append_left _ h)) d hg hu hp
    have hrest := methods_form_shows (fun a h => hmem a (List.mem_append_right _ h)) rest hg' hv hp'
    refine ⟨⟨⟨isWord_fun, hd.proper⟩, hrest.proper⟩, ?_⟩
    rw [functionForms, methods?, hd.reads, hrest.reads]
    rfl
end

end Lox
