/-! Sets of code points, written as ranges. -/
namespace Lox.Text

/-- Ranges with both ends in them. -/
abbrev Ranges := List (Nat × Nat)

def Ranges.contain (rs : Ranges) (n : Nat) : Bool := rs.any fun r => r.1 ≤ n && n ≤ r.2

end Lox.Text
