import Lox.Occurrence

/-! What can be wrong with a program, the wording of each cause, and diagnostics. -/
namespace Lox

inductive LexicalFault where
  | strayCharacter (c : Char)
  | openString
  deriving DecidableEq, Repr

/-- What the grammar wants at the place where it finds something else. -/
inductive Expected where
  | className | classBodyStart | classBodyEnd | method
  | functionName | parametersStart | parameterName | parametersEnd | functionBodyStart
  | variableName | variableEnd
  | forStart | forInitializerEnd | forConditionEnd | forEnd
  | whileStart | whileEnd | ifStart | ifEnd
  | breakEnd | continueEnd | returnEnd | printEnd | expressionEnd | blockEnd
  | propertyName | argumentsEnd | groupEnd | expression
  deriving DecidableEq, Repr

/-- The lists whose length is capped. -/
inductive Capped where
  | parameters | arguments
  deriving DecidableEq, Repr

/-- The two statements that act on the loop around them. -/
inductive LoopExit where
  | toEnd | toNext
  deriving DecidableEq, Repr

inductive GrammarFault where
  | expected (what : Expected)
  | endOfInput
  | tooMany (what : Capped)
  | outsideLoop (exit : LoopExit)
  | topLevelReturn
  | thisOutsideClass
  | invalidTarget
  deriving DecidableEq, Repr

inductive ScopeFault where
  | redeclared (name : String)
  | ownInitializer
  deriving DecidableEq, Repr

inductive RuntimeFault where
  | undefinedVariable (name : String)
  | redeclared (name : String)
  | operandNotNumber
  | operandsNotNumbers
  | operandsNotAddable
  | divisionByZero
  | notCallable
  | wrongArity (expected got : Nat)
  | callsTooDeep
  | noFields
  | noProperties
  | undefinedProperty (name : String)
  deriving DecidableEq, Repr

/-- Faults of a tree that scoping has not bound, or that the grammar would not have built. -/
inductive InternalFault where
  | noFrame (depth : Depth) (name : String)
  | missingLocal (name : String) (depth : Depth)
  | escapedTopLevel (signal : String)
  | escapedFunction (signal name : String)
  deriving DecidableEq, Repr

inductive Fault where
  | lexical (f : LexicalFault)
  | grammar (f : GrammarFault)
  | scope (f : ScopeFault)
  | runtime (f : RuntimeFault)
  | internal (f : InternalFault)
  | sinkFull
  deriving DecidableEq, Repr

def LexicalFault.message : LexicalFault → String
  | strayCharacter c => "Unexpected character: " ++ String.singleton c
  | openString => "Unterminated string."

def Expected.phrase : Expected → String
  | className => "class name"
  | classBodyStart => "'\x7b' before class body"
  | classBodyEnd => "'\x7d' after class body"
  | method => "method declaration"
  | functionName => "function name after 'fun'"
  | parametersStart => "'(' after function name"
  | parameterName => "parameter name"
  | parametersEnd => "')' after parameters"
  | functionBodyStart => "'\x7b' before function body"
  | variableName => "variable name"
  | variableEnd => "';' after variable declaration"
  | forStart => "'(' after 'for'"
  | forInitializerEnd => "';' after loop initializer"
  | forConditionEnd => "';' after loop condition"
  | forEnd => "')' after for clauses"
  | whileStart => "'(' after 'while'"
  | whileEnd => "')' after condition"
  | ifStart => "'(' after 'if'"
  | ifEnd => "')' after if condition"
  | breakEnd => "';' after 'break'"
  | continueEnd => "';' after 'continue'"
  | returnEnd => "';' after return value"
  | printEnd => "';' after value"
  | expressionEnd => "';' after expression"
  | blockEnd => "'\x7d' after block"
  | propertyName => "property name after '.'"
  | argumentsEnd => "')' after arguments"
  | groupEnd => "')' after expression"
  | expression => "expression"

/-- The longest parameter or argument list. -/
def Capped.limit : Nat := 255

def Capped.noun : Capped → String
  | parameters => "parameters"
  | arguments => "arguments"

def LoopExit.keyword : LoopExit → String
  | toEnd => "break"
  | toNext => "continue"

private def count (n : Nat) : String := String.ofList (Nat.toDigits 10 n)

def GrammarFault.message : GrammarFault → String
  | expected what => "Expected " ++ what.phrase ++ "."
  | endOfInput => "Unexpected end of input."
  | tooMany what => "Can't have more than " ++ count Capped.limit ++ " " ++ what.noun ++ "."
  | outsideLoop exit => "Can't use '" ++ exit.keyword ++ "' outside of a loop."
  | topLevelReturn => "Can't return from top-level code."
  | thisOutsideClass => "Can't use 'this' outside of a class method."
  | invalidTarget => "Invalid assignment target."

private def redeclaredMessage (name : String) : String :=
  "Already a variable named '" ++ name ++ "' in this scope."

def ScopeFault.message : ScopeFault → String
  | redeclared name => redeclaredMessage name
  | ownInitializer => "Can't read local variable in its own initializer."

def RuntimeFault.message : RuntimeFault → String
  | undefinedVariable name => "Undefined variable '" ++ name ++ "'."
  | redeclared name => redeclaredMessage name
  | operandNotNumber => "Operand must be a number."
  | operandsNotNumbers => "Operands must be numbers."
  | operandsNotAddable => "Operands must be numbers or strings."
  | divisionByZero => "Attempted to divide by zero."
  | notCallable => "Can only call functions and classes."
  | wrongArity expected got =>
    "Expected " ++ count expected ++ " arguments but got " ++ count got ++ "."
  | callsTooDeep => "Stack overflow."
  | noFields => "Only instances have fields."
  | noProperties => "Only instances have properties."
  | undefinedProperty name => "Undefined property '" ++ name ++ "'."

def InternalFault.message : InternalFault → String
  | noFrame depth name => "No frame at " ++ depth.text ++ " for '" ++ name ++ "'."
  | missingLocal name depth => "Resolved local '" ++ name ++ "' not found at " ++ depth.text ++ "."
  | escapedTopLevel signal => signal ++ " escaped to top level."
  | escapedFunction signal name => signal ++ " escaped function '" ++ name ++ "'."

def Fault.message : Fault → String
  | lexical f => f.message
  | grammar f => f.message
  | scope f => f.message
  | runtime f => f.message
  | internal f => f.message
  | sinkFull => "sink full"

def Fault.isInternal : Fault → Bool
  | internal _ => true
  | _ => false

/-- A fault and the line it is reported at. -/
structure Diagnostic where
  line : Nat
  fault : Fault
  deriving DecidableEq, Repr

namespace Diagnostic

/-- A full sink belongs to no line. -/
def sinkFull : Diagnostic := ⟨0, .sinkFull⟩

def text (d : Diagnostic) : String :=
  "[line " ++ count d.line ++ (if d.fault.isInternal then "] Internal error: " else "] Error: ")
    ++ d.fault.message

/-- One diagnostic a line. -/
def report (ds : List Diagnostic) : String := "\n".intercalate (ds.map text)

end Diagnostic
end Lox
