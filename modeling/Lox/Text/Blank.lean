import Lox.Text.Ranges

/-! White space, and text without it at its ends. -/
namespace Lox.Text

def blanks : Ranges :=
  [(0x9, 0xd), (0x20, 0x20), (0x85, 0x85), (0xa0, 0xa0), (0x1680, 0x1680), (0x2000, 0x200a),
   (0x2028, 0x2029), (0x202f, 0x202f), (0x205f, 0x205f), (0x3000, 0x3000)]

def isBlank (c : Char) : Bool := blanks.contain c.toNat

/-- The text between the blanks at its ends. -/
def trimmed (s : List Char) : List Char := ((s.dropWhile isBlank).reverse.dropWhile isBlank).reverse

end Lox.Text
