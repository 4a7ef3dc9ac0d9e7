import Lox.Token.Segment

/-! The tokens and lexical faults of a source, with their lines. -/
namespace Lox

/-- What scanning yields: a token, or a diagnostic in the place of one. -/
inductive Item where
  | token (t : Token)
  | fault (d : Diagnostic)
  deriving Repr

namespace Item

def token? : Item → Option Token
  | token t => some t
  | fault _ => none

def fault? : Item → Option Diagnostic
  | token _ => none
  | fault d => some d

/-- The items of a run of segments whose text starts on `line`. An item has the line on which its
segment ends, and the mark of the end has the last line. -/
def ofSegments (line : Nat) : List Segment → List Item
  | [] => [token ⟨.eof, "", .nil, line⟩]
  | s :: rest =>
    let here := line + s.newlines
    match s.content with
    | .gap => ofSegments here rest
    | .token kind literal =>
      token ⟨kind, String.ofList s.text, literal, here⟩ :: ofSegments here rest
    | .fault f => fault ⟨here, .lexical f⟩ :: ofSegments here rest

/-- The items of a source. -/
def scan (source : String) : List Item := ofSegments 1 (Segment.all source.toList)

end Item

/-- The tokens of a source; they end with the mark of the end. -/
def Token.scan (source : String) : List Token := (Item.scan source).filterMap Item.token?

/-- The lexical faults of a source. -/
def Diagnostic.scan (source : String) : List Diagnostic := (Item.scan source).filterMap Item.fault?

end Lox
