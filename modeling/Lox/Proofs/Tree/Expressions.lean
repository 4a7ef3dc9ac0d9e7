import Lox.Proofs.Grammar.Phrase
import Lox.Proofs.Number.Numeral
import Lox.Proofs.Token.Respacing
import Lox.Proofs.Tree.Shape

/-! Reading the form of an expression back. Scanning tells what a word is, and the number of parts
what an operator applies to. -/
namespace Lox

/-! The reader. It gives trees without lines. -/

/-- The expression that a token is by itself. -/
def Expr.ofToken (text : String) (kind : Kind) (constant : Literal) : Option Expr :=
  if kind = .identifier then some (.read ⟨text, .global⟩ 0)
  else if kind = .kwThis then some (.this ⟨text, .global⟩ 0)
  else if constant.kind = kind then some (.literal constant 0)
  else none

/-- The number that a text is. -/
def numeral? : List Char → Option Float
  | [] => none
  | c :: rest =>
    match (Segment.first c rest).content with
    | .token .number (.number x) => some x
    | _ => none

/-- A word is a token, or a number below zero. -/
def Expr.ofWord (text : String) : Option Expr :=
  match text.toList with
  | [] => none
  | c :: rest =>
    if c = '-' then (numeral? rest).map fun x => .literal (.number (-x)) 0
    else
      match (Segment.first c rest).content with
      | .token kind constant => Expr.ofToken text kind constant
      | _ => none

def BinaryOp.ofSymbol? : String → Option BinaryOp
  | "or" => some .or
  | "and" => some .and
  | "==" => some (.strict .equal)
  | "!=" => some (.strict .notEqual)
  | "<" => some (.strict .less)
  | "<=" => some (.strict .lessEqual)
  | ">" => some (.strict .greater)
  | ">=" => some (.strict .greaterEqual)
  | "+" => some (.strict .add)
  | "-" => some (.strict .subtract)
  | "*" => some (.strict .multiply)
  | "/" => some (.strict .divide)
  | _ => none

/-- The expression with the operator and the parts. As in a source, a target is read as an
expression first. -/
def Expr.ofParts : String → List Expr → Option Expr
  | "group", [inner] => some (.group inner 0)
  | "!", [right] => some (.unary .not right 0)
  | "-", [right] => some (.unary .negate right 0)
  | "=", [.read target _, value] => some (.assign target value 0)
  | "=", [.get object name _, value] => some (.set object name value 0)
  | ".", [object, .read o _] => some (.get object o.name 0)
  | "call", callee :: arguments => some (.call callee arguments 0)
  | symbol, [left, right] => (BinaryOp.ofSymbol? symbol).map fun op => .binary left op right 0
  | _, _ => none

mutual
def Form.expr? : Form → Option Expr
  | .word text => Expr.ofWord text
  | .list (.word head :: parts) => (expressions? parts).bind (Expr.ofParts head)
  | .list _ => none

def expressions? : List Form → Option (List Expr)
  | [] => some []
  | f :: rest => do return (← f.expr?) :: (← expressions? rest)
end

/-- The form is read as `a`, and its text can be told apart. -/
structure Form.Shows {α : Type} (read : Form → Option α) (f : Form) (a : α) : Prop where
  proper : f.Proper
  reads : read f = some a

/-- The same for forms that are read together. -/
structure FormsShow {α : Type} (read : List Form → Option α) (fs : List Form) (a : α) : Prop where
  proper : formsProper fs
  reads : read fs = some a

/-! Words. -/

theorem isMark_of_wordPart {c : Char} (h : Segment.isWordPart c = true) : isMark c = false := by
  rw [Bool.eq_false_iff]
  intro hmark
  simp only [isMark, Bool.or_eq_true, decide_eq_true_eq] at hmark
  obtain ((rfl | rfl) | rfl) | rfl := hmark <;> exact absurd h (by decide)

theorem isMark_of_digit {c : Char} (h : c.isDigit = true) : isMark c = false :=
  isMark_of_wordPart (by simp [Segment.isWordPart, Char.isAlphanum, h])

/-- What is scanned as an identifier. -/
def IsName (name : String) : Prop :=
  ∃ constant, Lexeme name.toList (.token .identifier constant)

/-- A name is made of letters, digits and underscores. -/
theorem IsName.isWord {name : String} (hname : IsName name) : IsWord name := by
  obtain ⟨constant, h⟩ := hname
  refine ⟨h.ne_nil, fun c hc => isMark_of_wordPart ?_⟩
  generalize name.toList = text, hcontent : Content.token .identifier constant = content at h hc
  cases h with
  | @name first rest hstart hrest =>
    obtain rfl | hc := List.mem_cons.1 hc
    · simp only [Segment.isWordStart, Bool.or_eq_true] at hstart
      simp only [Segment.isWordPart, Char.isAlphanum, Bool.or_eq_true]
      tauto
    · exact hrest c hc
  | operator hentry =>
    have hnone : ∀ entry ∈ operators, entry.2 ≠ .identifier := by decide
    injection hcontent with hkind
    exact absurd hkind.symm (hnone _ hentry)
  | keyword hentry =>
    have hnone : ∀ entry ∈ Kind.keywords, entry.2 ≠ .identifier := by decide
    injection hcontent with hkind
    exact absurd hkind.symm (hnone _ hentry)
  | _ => cases hcontent

theorem Expr.ofWord_lexeme {text : String} {kind : Kind} {constant : Literal}
    (h : Lexeme text.toList (.token kind constant)) (hkind : kind ≠ .minus) :
    Expr.ofWord text = Expr.ofToken text kind constant := by
  obtain ⟨c, rest, htext⟩ := List.exists_cons_of_ne_nil h.ne_nil
  rw [htext] at h
  have hfirst : (Segment.first c rest).content = .token kind constant :=
    congrArg Segment.content h.first_eq
  have hsign : c ≠ '-' := by
    rintro rfl
    have hminus : (Segment.first '-' rest).content = .token .minus .nil := rfl
    rw [hminus] at hfirst
    injection hfirst with hkind'
    exact hkind hkind'.symm
  simp only [ofWord, htext, hsign, if_false, hfirst]

theorem numeral?_text (n : Number.Numeral) : numeral? n.text = some n.double := by
  obtain ⟨c, rest, htext⟩ := List.exists_cons_of_ne_nil n.lexeme.ne_nil
  have hlexeme := n.lexeme
  rw [htext] at hlexeme ⊢
  simp only [numeral?, hlexeme.first_eq]

theorem Form.Shows.word {text : String} {e : Expr} (hword : IsWord text)
    (he : Expr.ofWord text = some e) : Form.Shows Form.expr? (.word text) e :=
  ⟨hword, he⟩

theorem IsName.shows {name : String} (h : IsName name) :
    Form.Shows Form.expr? (.word name) (.read ⟨name, .global⟩ 0) := by
  refine .word h.isWord ?_
  obtain ⟨constant, hlexeme⟩ := h
  exact Expr.ofWord_lexeme hlexeme (by decide)

theorem isWord_signedText (negative : Bool) (n : Number.Numeral) :
    IsWord (String.ofList (Number.signedText negative n)) := by
  constructor
  · rw [String.toList_ofList, Number.signedText]
    exact List.append_ne_nil_of_right_ne_nil _ n.lexeme.ne_nil
  · intro c hc
    rw [String.toList_ofList, Number.signedText] at hc
    obtain hc | hc := List.mem_append.1 hc
    · cases negative with
      | false => cases hc
      | true =>
        rw [List.mem_singleton.1 hc]
        rfl
    · obtain hdigit | rfl := Number.Numeral.mem_text hc
      · exact isMark_of_digit hdigit
      · rfl

theorem Expr.ofWord_signedText (negative : Bool) (n : Number.Numeral) :
    Expr.ofWord (String.ofList (Number.signedText negative n)) =
      some (.literal (.number (Number.signedDouble negative n)) 0) := by
  cases negative with
  | false =>
    have hlexeme : Lexeme (String.ofList (Number.signedText false n)).toList
        (.token .number (.number n.double)) := by
      rw [String.toList_ofList]
      exact n.lexeme
    exact ofWord_lexeme hlexeme (by decide)
  | true =>
    have htext : (String.ofList (Number.signedText true n)).toList = '-' :: n.text := by
      simp [Number.signedText]
    simp only [ofWord, htext, if_true, numeral?_text, Option.map_some]
    rfl

theorem shows_number {x : Float} (hnan : x.isNaN = false) (hinf : x.isInf = false) :
    Form.Shows Form.expr? (.word (Number.inTree.write x)) (.literal (.number x) 0) := by
  obtain ⟨negative, n, htext, -, hvalue⟩ := Number.readable_inTree.read_write hnan hinf
  rw [htext, ← hvalue rfl]
  exact .word (isWord_signedText negative n) (Expr.ofWord_signedText negative n)

/-! Parts. -/

section
variable {f : Form} {fs : List Form} {e : Expr} {es : List Expr} {head : String}

theorem Form.Shows.cons (h : f.Shows Form.expr? e) (hrest : FormsShow expressions? fs es) :
    FormsShow expressions? (f :: fs) (e :: es) where
  proper := ⟨h.proper, hrest.proper⟩
  reads := by
    rw [expressions?, h.reads, hrest.reads]
    rfl

theorem FormsShow.nil : FormsShow expressions? [] [] := ⟨trivial, rfl⟩

/-- What the parts show decides what the form shows. -/
theorem FormsShow.under (h : FormsShow expressions? fs es) (hhead : IsWord head)
    (he : Expr.ofParts head es = some e) : Form.Shows Form.expr? (.list (.word head :: fs)) e where
  proper := ⟨hhead, h.proper⟩
  reads := by rw [Form.expr?, h.reads, Option.bind_some, he]

theorem UnaryOp.isWord_symbol (op : UnaryOp) : IsWord op.symbol := by
  cases op <;> decide

theorem BinaryOp.isWord_symbol (op : BinaryOp) : IsWord op.symbol := by
  obtain _ | _ | op := op
  · decide
  · decide
  · cases op <;> decide

theorem UnaryOp.ofParts_symbol (op : UnaryOp) (right : Expr) :
    Expr.ofParts op.symbol [right] = some (.unary op right 0) := by
  cases op <;> rfl

theorem BinaryOp.ofParts_symbol (op : BinaryOp) (left right : Expr) :
    Expr.ofParts op.symbol [left, right] = some (.binary left op right 0) := by
  obtain _ | _ | op := op
  · rfl
  · rfl
  · cases op <;> rfl

end

/-! Expressions. -/

/-- The literals that are shown as themselves. -/
def Literal.Plain : Literal → Prop
  | nil | bool _ => True
  | number x => x.isInf = false
  | string _ => False

example : (Literal.string "nil").text = Literal.nil.text := by rfl

mutual
/-- No string literals, no infinite numbers, and no variable that looks like an absent clause. -/
def Expr.Plain : Expr → Prop
  | .literal value _ => value.Plain
  | .group inner _ => inner.Plain
  | .unary _ right _ => right.Plain
  | .binary left _ right _ => left.Plain ∧ right.Plain
  | .read occurrence _ => occurrence.name ≠ absentClause
  | .this _ _ => True
  | .assign _ value _ => value.Plain
  | .get object _ _ => object.Plain
  | .set object _ value _ => object.Plain ∧ value.Plain
  | .call callee arguments _ => callee.Plain ∧ argumentsPlain arguments

def argumentsPlain : List Expr → Prop
  | [] => True
  | e :: rest => e.Plain ∧ argumentsPlain rest
end

/-- A name is scanned as one, and no number is a NaN. -/
structure Symbol.Legible (a : Symbol) : Prop where
  name : a.kind = .identifier → IsName a.name
  number (x : Float) : a.constant = .number x → x.isNaN = false

theorem Literal.form_shows {value : Literal} (hp : value.Plain)
    (hnumber : ∀ x, value = .number x → x.isNaN = false) :
    Form.Shows Form.expr? (.word value.text) (.literal value 0) := by
  cases value with
  | nil => exact .word (by decide) rfl
  | bool b => cases b <;> exact .word (by decide) rfl
  | number x => exact shows_number (hnumber x rfl) hp
  | string => exact hp.elim

mutual
theorem Expr.form_shows {inClass : Bool} : (e : Expr) → e.Grammatical inClass →
    (∀ a ∈ e.symbols, a.Legible) → e.Plain → e.form.Shows Form.expr? e.withoutLines
  | .literal value _, _, ha, hp =>
    value.form_shows hp (ha (.literal value) (by simp [Expr.symbols])).number
  | .group inner _, hg, ha, hp => by
    have hinner := inner.form_shows hg (fun a h => ha a (by simp [Expr.symbols, h])) hp
    exact (hinner.cons .nil).under (by decide) rfl
  | .unary op right _, ⟨_, hg⟩, ha, hp => by
    have hright := right.form_shows hg (fun a h => ha a (by simp [Expr.symbols, h])) hp
    exact (hright.cons .nil).under op.isWord_symbol (op.ofParts_symbol _)
  | .binary left op right _, ⟨⟨_, hg⟩, _, hg'⟩, ha, ⟨hp, hp'⟩ => by
    have hleft := left.form_shows hg (fun a h => ha a (by simp [Expr.symbols, h])) hp
    have hright := right.form_shows hg' (fun a h => ha a (by simp [Expr.symbols, h])) hp'
    exact (hleft.cons (hright.cons .nil)).under op.isWord_symbol (op.ofParts_symbol _ _)
  | .read ⟨name, _⟩ _, rfl, ha, _ =>
    ((ha (.identifier name) (by simp [Expr.symbols])).name rfl).shows
  | .this _ _, ⟨rfl, _⟩, _, _ => .word (by decide) rfl
  | .assign ⟨name, _⟩ value _, ⟨rfl, hg⟩, ha, hp => by
    have hname := ((ha (.identifier name) (by simp [Expr.symbols])).name rfl).shows
    have hvalue := value.form_shows hg (fun a h => ha a (by simp [Expr.symbols, h])) hp
    exact (hname.cons (hvalue.cons .nil)).under (by decide) rfl
  | .get object name _, ⟨_, hg⟩, ha, hp => by
    have hobject := object.form_shows hg (fun a h => ha a (by simp [Expr.symbols, h])) hp
    have hname := ((ha (.identifier name) (by simp [Expr.symbols])).name rfl).shows
    exact (hobject.cons (hname.cons .nil)).under (by decide) rfl
  | .set object name value _, ⟨⟨_, hg⟩, hg'⟩, ha, ⟨hp, hp'⟩ => by
    have hobject := object.form_shows hg (fun a h => ha a (by simp [Expr.symbols, h])) hp
    have hname := ((ha (.identifier name) (by simp [Expr.symbols])).name rfl).shows
    have hvalue := value.form_shows hg' (fun a h => ha a (by simp [Expr.symbols, h])) hp'
    -- The target is a property that is read before it is known to be assigned.
    have hget : Form.Shows Form.expr? (.list [.word ".", object.form, .word name])
        (.get object.withoutLines name 0) := (hobject.cons (hname.cons .nil)).under (by decide) rfl
    exact (hget.cons (hvalue.cons .nil)).under (by decide) rfl
  | .call callee arguments _, ⟨⟨_, hg⟩, _, hg'⟩, ha, ⟨hp, hp'⟩ => by
    have hcallee := callee.form_shows hg (fun a h => ha a (by simp [Expr.symbols, h])) hp
    have harguments := arguments_form_shows arguments hg'
      (fun a h => ha a (by simp [Expr.symbols, h])) hp'
    exact (hcallee.cons harguments).under (by decide) rfl

theorem arguments_form_shows {inClass : Bool} : (es : List Expr) → argumentsGrammatical inClass es →
    (∀ a ∈ argumentSymbols es, a.Legible) → argumentsPlain es →
      FormsShow expressions? (argumentForms es) (argumentsWithoutLines es)
  | [], _, _, _ => .nil
  | e :: rest, ⟨hg, hg'⟩, ha, ⟨hp, hp'⟩ => by
    have he := e.form_shows hg (fun a h => ha a (by simp [argumentSymbols, h])) hp
    refine he.cons (arguments_form_shows rest hg' (fun a h => ha a ?_) hp')
    cases rest with
    | nil => cases h
    | cons => exact List.mem_append_right _ (List.mem_cons_of_mem _ h)
end

end Lox
