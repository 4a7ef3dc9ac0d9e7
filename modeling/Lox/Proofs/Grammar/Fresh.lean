import Lox.Tree

/-! Fresh trees: no name has a depth yet, and `this` stands inside a class. -/
namespace Lox

/-- One place where a name is read or assigned, or where `this` stands. -/
structure Mark where
  isThis : Bool
  occurrence : Occurrence

mutual
def Expr.marks : Expr → List Mark
  | .literal _ _ => []
  | .group inner _ => inner.marks
  | .unary _ right _ => right.marks
  | .binary left _ right _ => left.marks ++ right.marks
  | .read o _ => [⟨false, o⟩]
  | .this o _ => [⟨true, o⟩]
  | .assign target value _ => ⟨false, target⟩ :: value.marks
  | .get object _ _ => object.marks
  | .set object _ value _ => object.marks ++ value.marks
  | .call callee arguments _ => callee.marks ++ argumentMarks arguments

def argumentMarks : List Expr → List Mark
  | [] => []
  | e :: rest => e.marks ++ argumentMarks rest
end

def optionalMarks : Option Expr → List Mark
  | none => []
  | some e => e.marks

def Mark.Fresh (inClass : Bool) (m : Mark) : Prop :=
  m.occurrence.depth = .global ∧ (m.isThis → m.occurrence.name = "this" ∧ inClass)

section
variable (inClass : Bool)

def AllFresh (marks : List Mark) : Prop := ∀ m ∈ marks, m.Fresh inClass

def Expr.Fresh (e : Expr) : Prop := AllFresh inClass e.marks

def argumentsFresh (es : List Expr) : Prop := AllFresh inClass (argumentMarks es)

def optionalFresh (e? : Option Expr) : Prop := AllFresh inClass (optionalMarks e?)

def VarDecl.Fresh (decl : VarDecl) : Prop := optionalFresh inClass decl.initializer

def ForInit.Fresh : ForInit → Prop
  | nothing => True
  | declare decl => decl.Fresh inClass
  | evaluate e => e.Fresh inClass

theorem allFresh_nil : AllFresh inClass [] := by simp [AllFresh]

end

section
variable {inClass : Bool}

theorem AllFresh.append {marks marks' : List Mark} (h : AllFresh inClass marks)
    (h' : AllFresh inClass marks') : AllFresh inClass (marks ++ marks') :=
  List.forall_mem_append.2 ⟨h, h'⟩

/-- A name that the grammar has just read. -/
theorem allFresh_name (name : String) : AllFresh inClass [⟨false, ⟨name, .global⟩⟩] := by
  simp [AllFresh, Mark.Fresh]

theorem allFresh_this (h : inClass) : AllFresh inClass [⟨true, ⟨"this", .global⟩⟩] := by
  simp [AllFresh, Mark.Fresh, h]

end

mutual
def Stmt.Fresh (inClass : Bool) : Stmt → Prop
  | .expression e _ | .print e _ => e.Fresh inClass
  | .var decl => decl.Fresh inClass
  | .function decl => functionFresh inClass decl
  | .classDecl _ methods _ => methodsFresh true methods
  | .block statements _ => statementsFresh inClass statements
  | .ifThen condition thenBranch _ => condition.Fresh inClass ∧ thenBranch.Fresh inClass
  | .ifElse condition thenBranch elseBranch _ =>
    condition.Fresh inClass ∧ thenBranch.Fresh inClass ∧ elseBranch.Fresh inClass
  | .whileLoop condition body _ => condition.Fresh inClass ∧ body.Fresh inClass
  | .forLoop init condition increment body _ =>
    init.Fresh inClass ∧ optionalFresh inClass condition ∧ optionalFresh inClass increment ∧
      body.Fresh inClass
  | .loopExit _ _ => True
  | .returns value _ => optionalFresh inClass value

def statementsFresh (inClass : Bool) : List Stmt → Prop
  | [] => True
  | s :: rest => s.Fresh inClass ∧ statementsFresh inClass rest

def functionFresh (inClass : Bool) : FunDecl Stmt → Prop
  | ⟨_, _, body, _, _⟩ => statementsFresh inClass body

def methodsFresh (inClass : Bool) : List (FunDecl Stmt) → Prop
  | [] => True
  | d :: rest => functionFresh inClass d ∧ methodsFresh inClass rest
end

end Lox
