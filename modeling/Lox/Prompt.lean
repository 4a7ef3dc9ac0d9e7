import Lox.Session
import Lox.Text.Blank

/-! The prompt: sources line by line on one machine, until `exit` or the end of the input. -/
namespace Lox.Prompt

def mark : String := "> "

/-- One line of input: its text, or the fact that its bytes are no text. -/
inductive Line where
  | text (s : String)
  | notText
  deriving DecidableEq, Repr

private def newline : UInt8 := 10
private def carriageReturn : UInt8 := 13

/-- A line without its end, which may have a carriage return in it. -/
def Line.ofBytes (bytes : ByteArray) (ended : Bool) : Line :=
  match String.fromUTF8? bytes with
  | none => .notText
  | some s => .text (if ended && s.endsWith "\r" then String.ofList s.toList.dropLast else s)

private def linesOf (line : List UInt8) : List UInt8 → List Line
  | [] => if line.isEmpty then [] else [.ofBytes ⟨line.reverse.toArray⟩ false]
  | b :: rest =>
    if b = newline then .ofBytes ⟨line.reverse.toArray⟩ true :: linesOf [] rest
    else linesOf (b :: line) rest

/-- The lines of an input. A last line need not be ended. -/
def lines (input : ByteArray) : List Line := linesOf [] input.data.toList

private theorem linesOf_ended {line : List UInt8} (h : newline ∉ line) (before rest : List UInt8) :
    linesOf before (line ++ newline :: rest) =
      .ofBytes ⟨(before.reverse ++ line).toArray⟩ true :: linesOf [] rest := by
  induction line generalizing before with
  | nil => rw [List.nil_append, linesOf, if_pos rfl, List.append_nil]
  | cons b line ih =>
    have hb := List.ne_of_not_mem_cons h
    have hline := List.not_mem_of_not_mem_cons h
    rw [List.cons_append, linesOf, if_neg (Ne.symm hb), ih hline, List.reverse_cons,
      List.append_assoc, List.singleton_append]

private theorem linesOf_unended {line : List UInt8} (h : newline ∉ line) (before : List UInt8) :
    linesOf before line = if (before.reverse ++ line).isEmpty then []
      else [.ofBytes ⟨(before.reverse ++ line).toArray⟩ false] := by
  induction line generalizing before with
  | nil => rw [linesOf, List.append_nil, List.isEmpty_reverse]
  | cons b line ih =>
    have hb := List.ne_of_not_mem_cons h
    have hline := List.not_mem_of_not_mem_cons h
    rw [linesOf, if_neg (Ne.symm hb), ih hline, List.reverse_cons, List.append_assoc,
      List.singleton_append]

theorem lines_ended {line : List UInt8} (h : 10 ∉ line) (rest : List UInt8) :
    lines ⟨(line ++ 10 :: rest).toArray⟩ =
      .ofBytes ⟨line.toArray⟩ true :: lines ⟨rest.toArray⟩ :=
  linesOf_ended h [] rest

theorem lines_unended {line : List UInt8} (h : 10 ∉ line) :
    lines ⟨line.toArray⟩ = if line.isEmpty then [] else [.ofBytes ⟨line.toArray⟩ false] :=
  linesOf_unended h []

def isExit (line : String) : Bool := Text.trimmed line.toList = "exit".toList

/-- How a prompt ends. -/
inductive Ending where
  | exit | endOfInput | notText
  deriving DecidableEq, Repr

/-- What is written to the output and to the error output. -/
structure Written where
  output : String
  errors : String
  deriving DecidableEq, Repr

/-- What a source made the prompt write. -/
def Written.ofEntry (e : Entry) : Written :=
  ⟨textOfCut e.printed,
   match e.failure with
   | none => ""
   | some f => f.text ++ "\n"⟩

def Written.append (a b : Written) : Written := ⟨a.output ++ b.output, a.errors ++ b.errors⟩

/-- What a prompt does with a line. -/
inductive Reaction where
  | ends (ending : Ending)
  | goesOn (written : Written) (m : Machine)

/-- The reaction to a line, or to the end of the input. -/
def react (fuel : Nat) : Option Line → Machine → Option Reaction
  | none, _ => some (.ends .endOfInput)
  | some .notText, _ => some (.ends .notText)
  | some (.text s), m =>
    if isExit s then some (.ends .exit)
    else (m.enterSource fuel s).map fun r => .goesOn (.ofEntry r.1) r.2

/-- All that a prompt writes for some lines of input, and how it ends. Every line that is waited
for has its mark in the output. -/
def run (fuel : Nat) : List Line → Machine → Option (Written × Ending)
  | [], _ => some (⟨mark, ""⟩, .endOfInput)
  | line :: rest, m => do
    match ← react fuel (some line) m with
    | .ends ending => pure (⟨mark, ""⟩, ending)
    | .goesOn written m =>
      let (later, ending) ← run fuel rest m
      pure ((Written.append ⟨mark, ""⟩ written).append later, ending)

end Lox.Prompt
