import Lox.CommandLine

/-! The program: it reads arguments, files and lines, and writes what the commands answer. -/
namespace Lox.Main

/-- More fuel than any run can use up. -/
def fuel : Nat := Nat.pow 2 62

/-- The values of the clock during one run: the seconds at its start, and a little more each time. -/
def clock : IO (Nat → Float) := do
  let start := Float.ofNat (← IO.monoMsNow) / 1000
  pure fun i => start + Float.ofNat i / 1000000

def machine : IO Machine := return .start (some callLimit) .unlimited (← clock)

/-- A system error with its number, which the system may give negated. -/
def systemError (details : String) (code : UInt32) : String :=
  details.capitalize ++ " (os error " ++ toString (min code (0 - code)) ++ ")"

/-- The failure of reading a file. A directory can be opened and yields nothing. -/
def unreadable : IO.Error → CommandLine.FileContent
  | .inappropriateType _ 21 details => .cannotRead (systemError details 21)
  | .noFileOrDirectory _ code details | .permissionDenied _ code details
  | .inappropriateType _ code details | .invalidArgument _ code details =>
    .cannotOpen (systemError details code)
  | e => .cannotOpen (toString e)

def content (file : String) : IO CommandLine.FileContent := do
  try
    return .bytes (← IO.FS.readBinFile file)
  catch e =>
    return unreadable e

/-- Writes a result and gives its exit code. -/
def finish (r : CommandLine.Result) : IO UInt32 := do
  (← IO.getStdout).putStr r.output
  (← IO.getStdout).flush
  (← IO.getStderr).putStr r.errors
  return UInt32.ofNat r.exitCode

/-- The bytes of the next line of input, and whether it is ended; nothing at the end of the input. -/
partial def nextLine (input : IO.FS.Stream) (line : ByteArray) : IO (Option (ByteArray × Bool)) := do
  let byte ← input.read 1
  if byte.isEmpty then return if line.isEmpty then none else some (line, false)
  else if byte[0]! = 10 then return some (line, true)
  else nextLine input (line ++ byte)

/-- The prompt, a line at a time. -/
partial def converse (m : Machine) : IO UInt32 := do
  let output ← IO.getStdout
  output.putStr Prompt.mark
  output.flush
  let line := (← nextLine (← IO.getStdin) .empty).map fun l => Prompt.Line.ofBytes l.1 l.2
  match Prompt.react fuel line m with
  | none => return 70
  | some (.ends ending) => finish (CommandLine.promptResult ⟨"", ""⟩ ending)
  | some (.goesOn written m) =>
    output.putStr written.output
    output.flush
    (← IO.getStderr).putStr written.errors
    converse m

def carryOut (command : CommandLine.Command) : IO UInt32 := do
  match command with
  | .prompt => converse (← machine)
  | .tokenize file _ | .parse file _ | .run file =>
    let c ← content file
    match CommandLine.carryOut fuel (← machine) (fun _ => c) .empty command with
    | none => return 70
    | some r => finish r

end Lox.Main

def main (words : List String) : IO UInt32 :=
  match Lox.CommandLine.Command.ofWords? words with
  | none => Lox.Main.finish Lox.CommandLine.usage
  | some command => Lox.Main.carryOut command
