import Lox.Proofs.Tree.Form

/-! The forms that trees are shown as. -/
namespace Lox

mutual
def Expr.form : Expr → Form
  | .literal value _ => .word value.text
  | .group inner _ => .list [.word "group", inner.form]
  | .unary op right _ => .list [.word op.symbol, right.form]
  | .binary left op right _ => .list [.word op.symbol, left.form, right.form]
  | .read occurrence _ => .word occurrence.name
  | .this _ _ => .word "this"
  | .assign target value _ => .list [.word "=", .word target.name, value.form]
  | .get object name _ => .list [.word ".", object.form, .word name]
  | .set object name value _ =>
    .list [.word "=", .list [.word ".", object.form, .word name], value.form]
  | .call callee arguments _ => .list (.word "call" :: callee.form :: argumentForms arguments)

def argumentForms : List Expr → List Form
  | [] => []
  | e :: rest => e.form :: argumentForms rest
end

/-- A variable declaration behind its keyword. -/
def VarDecl.parts (d : VarDecl) : List Form :=
  match d.initializer with
  | some e => [.word d.name, e.form]
  | none => [.word d.name]

def VarDecl.form (d : VarDecl) : Form := .list (.word "var" :: d.parts)

def ForInit.form : ForInit → Form
  | nothing => .word absentClause
  | declare decl => decl.form
  | evaluate expr => expr.form

def clauseForm : Option Expr → Form
  | none => .word absentClause
  | some e => e.form

mutual
def Stmt.form : Stmt → Form
  | .expression expr _ => .list [.word ";", expr.form]
  | .print expr _ => .list [.word "print", expr.form]
  | .var decl => decl.form
  | .function decl => .list (.word "fun" :: functionParts decl)
  | .classDecl name methods _ => .list (.word "class" :: .word name :: functionForms methods)
  | .block statements _ => .list (.word "block" :: statementForms statements)
  | .ifThen condition thenBranch _ => .list [.word "if", condition.form, thenBranch.form]
  | .ifElse condition thenBranch elseBranch _ =>
    .list [.word "if", condition.form, thenBranch.form, elseBranch.form]
  | .whileLoop condition body _ => .list [.word "while", condition.form, body.form]
  | .forLoop init condition increment body _ =>
    .list [.word "for", init.form, clauseForm condition, clauseForm increment, body.form]
  | .loopExit exit _ => .list [.word exit.keyword]
  | .returns (some e) _ => .list [.word "return", e.form]
  | .returns none _ => .list [.word "return"]

def statementForms : List Stmt → List Form
  | [] => []
  | s :: rest => s.form :: statementForms rest

/-- A function behind its keyword. -/
def functionParts : FunDecl Stmt → List Form
  | ⟨name, params, body, _, _⟩ =>
    .word name :: .list (params.map .word) :: statementForms body

def functionForms : List (FunDecl Stmt) → List Form
  | [] => []
  | d :: rest => .list (.word "fun" :: functionParts d) :: functionForms rest
end

/-! Their texts are the texts of the trees. -/

theorem formTexts_eq_map (fs : List Form) : formTexts fs = fs.map Form.text := by
  induction fs with
  | nil => rfl
  | cons f rest ih => rw [formTexts, ih, List.map_cons]

theorem formTexts_words (words : List String) : formTexts (words.map .word) = words := by
  rw [formTexts_eq_map, List.map_map]
  exact List.map_id words

mutual
theorem Expr.text_form : (e : Expr) → e.form.text = e.text
  | .literal _ _ | .read _ _ | .this _ _ => rfl
  | .group inner _ => by
    simp only [Expr.form, Form.text, formTexts, inner.text_form, Expr.text]
  | .unary _ right _ => by
    simp only [Expr.form, Form.text, formTexts, right.text_form, Expr.text]
  | .binary left _ right _ => by
    simp only [Expr.form, Form.text, formTexts, left.text_form, right.text_form, Expr.text]
  | .assign _ value _ => by
    simp only [Expr.form, Form.text, formTexts, value.text_form, Expr.text]
  | .get object _ _ => by
    simp only [Expr.form, Form.text, formTexts, object.text_form, Expr.text]
  | .set object _ value _ => by
    simp only [Expr.form, Form.text, formTexts, object.text_form, value.text_form, Expr.text]
  | .call callee arguments _ => by
    simp only [Expr.form, Form.text, formTexts, callee.text_form, arguments_texts arguments,
      Expr.text]

theorem arguments_texts : (es : List Expr) → formTexts (argumentForms es) = argumentTexts es
  | [] => rfl
  | e :: rest => by
    simp only [argumentForms, formTexts, e.text_form, arguments_texts rest, argumentTexts]
end

theorem VarDecl.text_form (decl : VarDecl) : decl.form.text = decl.text := by
  rcases decl with ⟨_, _ | e, _⟩
  · rfl
  · simp only [VarDecl.form, VarDecl.parts, Form.text, formTexts, e.text_form, VarDecl.text]

theorem ForInit.text_form : (init : ForInit) → init.form.text = init.text
  | nothing => rfl
  | declare decl => decl.text_form
  | evaluate e => e.text_form

theorem Stmt.text_forLoop (init : ForInit) (condition increment : Option Expr) (body : Stmt)
    (line : Nat) : (Stmt.forLoop init condition increment body line).text =
      Lox.form ["for", init.text, (clauseForm condition).text, (clauseForm increment).text,
        body.text] := by
  cases condition <;> cases increment <;> simp only [clauseForm, Expr.text_form] <;> rfl

mutual
theorem Stmt.text_form : (s : Stmt) → s.form.text = s.text
  | .expression e _ => by simp only [Stmt.form, Form.text, formTexts, e.text_form, Stmt.text]
  | .print e _ => by simp only [Stmt.form, Form.text, formTexts, e.text_form, Stmt.text]
  | .var decl => decl.text_form
  | .function decl => function_text decl
  | .classDecl _ methods _ => by
    simp only [Stmt.form, Form.text, formTexts, functions_texts methods, Stmt.text]
  | .block statements _ => by
    simp only [Stmt.form, Form.text, formTexts, statements_texts statements, Stmt.text]
  | .ifThen condition thenBranch _ => by
    simp only [Stmt.form, Form.text, formTexts, condition.text_form, thenBranch.text_form,
      Stmt.text]
  | .ifElse condition thenBranch elseBranch _ => by
    simp only [Stmt.form, Form.text, formTexts, condition.text_form, thenBranch.text_form,
      elseBranch.text_form, Stmt.text]
  | .whileLoop condition body _ => by
    simp only [Stmt.form, Form.text, formTexts, condition.text_form, body.text_form, Stmt.text]
  | .forLoop init condition increment body _ => by
    simp only [Stmt.form, Form.text, formTexts, init.text_form, body.text_form, Stmt.text_forLoop]
  | .loopExit _ _ => rfl
  | .returns (some e) _ => by simp only [Stmt.form, Form.text, formTexts, e.text_form, Stmt.text]
  | .returns none _ => rfl

theorem statements_texts : (ss : List Stmt) → formTexts (statementForms ss) = statementTexts ss
  | [] => rfl
  | s :: rest => by
    simp only [statementForms, formTexts, s.text_form, statements_texts rest, statementTexts]

theorem function_text : (d : FunDecl Stmt) →
    (Form.list (.word "fun" :: functionParts d)).text = functionText d
  | ⟨_, _, body, _, _⟩ => by
    simp only [functionParts, Form.text, formTexts, formTexts_words, statements_texts body,
      functionText]

theorem functions_texts : (ds : List (FunDecl Stmt)) →
    formTexts (functionForms ds) = functionTexts ds
  | [] => rfl
  | d :: rest => by
    simp only [functionForms, formTexts, function_text d, functions_texts rest, functionTexts]
end

theorem programText_eq (statements : List Stmt) :
    programText statements = "\n".intercalate (formTexts (statementForms statements)) := by
  rw [programText, statements_texts]

end Lox
