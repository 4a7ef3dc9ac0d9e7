import Lox.Prompt
import Lox.Tree.Json
import Lox.Tree.Text

/-! The command line: its commands and what each writes. -/
namespace Lox.CommandLine

inductive Command where
  | tokenize (file : String) (json : Bool)
  | parse (file : String) (json : Bool)
  | run (file : String)
  | prompt
  deriving DecidableEq, Repr

/-- The words of a command line: options, wherever they stand, and the others in order. Behind
`--` no word is an option. -/
private def sortWords : List String → List String × List String
  | [] => ([], [])
  | "--" :: rest => ([], rest)
  | word :: rest =>
    let (options, others) := sortWords rest
    if word.startsWith "--" then (word :: options, others) else (options, word :: others)

/-- The command that the words ask for. Logging may be asked for anywhere and shows nowhere. -/
def Command.ofWords? (words : List String) : Option Command :=
  let (options, others) := sortWords words
  match options.filter (· != "--log"), others with
  | [], ["tokenize", file] => some (.tokenize file false)
  | ["--json"], ["tokenize", file] => some (.tokenize file true)
  | [], ["parse", file] => some (.parse file false)
  | ["--json"], ["parse", file] => some (.parse file true)
  | [], ["run", file] => some (.run file)
  | [], ["run"] => some .prompt
  | _, _ => none

/-- What comes of opening and reading a file. -/
inductive FileContent where
  | bytes (b : ByteArray)
  | cannotOpen (reason : String)
  | cannotRead (reason : String)

/-- What a command leaves behind. -/
structure Result where
  exitCode : Nat
  output : String
  errors : String
  deriving DecidableEq, Repr

/-- A failure of the surroundings, with the reason below. -/
def Result.failure (output what reason : String) : Result :=
  ⟨1, output, "Error: " ++ what ++ "\n\nCaused by:\n    " ++ reason ++ "\n"⟩

def notText : String := "stream did not contain valid UTF-8"

def usage : Result :=
  ⟨2, "", "Usage: tokenize [--json] FILE | parse [--json] FILE | run [FILE]\n"⟩

/-- The source in a file, or the result of not getting it. -/
def source (file : String) : FileContent → Except Result String
  | .cannotOpen reason => .error (.failure "" ("Failed to open file " ++ Text.quoted file) reason)
  | .cannotRead reason => .error (.failure "" ("Failed to read file " ++ Text.quoted file) reason)
  | .bytes b =>
    match String.fromUTF8? b with
    | some s => .ok s
    | none => .error (.failure "" ("Failed to read file " ++ Text.quoted file) notText)

private def onLines (texts : List String) : String := String.join (texts.map (· ++ "\n"))

/-- Shows the tokens of a source; lexical faults do not keep the others from being shown. -/
def tokenize (json : Bool) (source : String) : Result :=
  let faults := Diagnostic.scan source
  let tokens := Token.scan source
  { exitCode := if faults.isEmpty then 0 else Stage.scan.exitCode
    output :=
      if json then (Json.list (tokens.map Token.toJson)).pretty ++ "\n"
      else onLines (tokens.map Token.text)
    errors := onLines (faults.map Diagnostic.text) }

/-- The result of a failure of a program that had this output. -/
def Result.ofFailure (output : String) (f : Failure) : Result :=
  ⟨f.stage.exitCode, output, f.text ++ "\n"⟩

/-- Shows the tree of a source that compiles. -/
def parse (json : Bool) (source : String) : Result :=
  match compile source with
  | .error f => .ofFailure "" f
  | .ok program =>
    ⟨0, (if json then (programToJson program).pretty else programText program) ++ "\n", ""⟩

/-- Runs a source. -/
def run (fuel : Nat) (m : Machine) (source : String) : Option Result :=
  (m.enterSource fuel source).map fun r =>
    let output := textOfCut r.1.printed
    match r.1.failure with
    | none => ⟨0, output, ""⟩
    | some f => .ofFailure output f

/-- The result of a prompt that wrote `written` and ended so. The end of the input closes the line
of the last mark. -/
def promptResult (written : Prompt.Written) : Prompt.Ending → Result
  | .exit => ⟨0, written.output, written.errors⟩
  | .endOfInput => ⟨0, written.output ++ "\n", written.errors⟩
  | .notText =>
    let r := Result.failure written.output "Failed to read from stdin" notText
    { r with errors := written.errors ++ r.errors }

/-- A prompt over a whole input. -/
def prompt (fuel : Nat) (m : Machine) (input : ByteArray) : Option Result :=
  (Prompt.run fuel (Prompt.lines input) m).map fun r => promptResult r.1 r.2

/-- Carries out a command on a fresh machine. -/
def carryOut (fuel : Nat) (m : Machine) (files : String → FileContent) (input : ByteArray) :
    Command → Option Result
  | .tokenize file json =>
    match source file (files file) with
    | .error r => some r
    | .ok s => some (tokenize json s)
  | .parse file json =>
    match source file (files file) with
    | .error r => some r
    | .ok s => some (parse json s)
  | .run file =>
    match source file (files file) with
    | .error r => some r
    | .ok s => run fuel m s
  | .prompt => prompt fuel m input

end Lox.CommandLine
