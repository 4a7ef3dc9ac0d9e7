import Lox.Number.Shortest

/-! How a double is written: a record of decisions, and the text it gives. -/
namespace Lox.Number

/-- The magnitudes that are written out as exact integers when they are whole. -/
inductive Exact where
  | never
  | upTo (bound : Nat)
  | always
  deriving DecidableEq, Repr

def Exact.covers : Exact → Nat → Bool
  | never, _ => false
  | upTo bound, n => n ≤ bound
  | always, _ => true

/-- Leading exponents in `start ≤ e < below` stay positional; others take an exponent part,
whose sign is written even if positive when `plus` is set. -/
structure Scientific where
  start : Int
  below : Int
  plus : Bool
  deriving DecidableEq, Repr

/-- The decisions of one way to write doubles. -/
structure Layout where
  exact : Exact
  /-- What follows an exact integer. -/
  exactTail : String
  /-- Whether an exact zero shows its sign. -/
  signedZero : Bool
  /-- What follows a whole number that is written by its shortest digits. -/
  wholeTail : String
  /-- Without it every number is positional. -/
  scientific : Option Scientific
  tie : Tie
  nan : String
  infinity : String
  negativeInfinity : String
  deriving DecidableEq, Repr

private def zeros (n : Nat) : List Char := List.replicate n '0'

/-- The decimal without an exponent part. -/
def Decimal.positional (d : Decimal) (wholeTail : List Char) : List Char :=
  let text := d.text
  if 0 ≤ d.exponent then text ++ zeros d.exponent.toNat ++ wholeTail
  else
    let places := (-d.exponent).toNat
    if places < text.length then
      text.take (text.length - places) ++ '.' :: text.drop (text.length - places)
    else '0' :: '.' :: (zeros (places - text.length) ++ text)

private def signedDigits (plus : Bool) (e : Int) : List Char :=
  (if e < 0 then ['-'] else if plus then ['+'] else []) ++ Nat.toDigits 10 e.natAbs

/-- The decimal with one digit before the point and an exponent part. -/
def Decimal.scientific (d : Decimal) (plus : Bool) : List Char :=
  let fraction := d.text.drop 1
  d.text.take 1 ++ (if fraction.isEmpty then [] else '.' :: fraction) ++
    'e' :: signedDigits plus d.leading

def Layout.decimal (l : Layout) (d : Decimal) : List Char :=
  match l.scientific with
  | none => d.positional l.wholeTail.toList
  | some s =>
    if s.start ≤ d.leading && d.leading < s.below then d.positional l.wholeTail.toList
    else d.scientific s.plus

private def minus (negative : Bool) : List Char := if negative then ['-'] else []

/-- The text of a finite magnitude with its sign. -/
def Layout.finite (l : Layout) (negative : Bool) (x : Magnitude) : List Char :=
  match x.whole? with
  | some n =>
    if l.exact.covers n then
      minus (negative && (n != 0 || l.signedZero)) ++ Nat.toDigits 10 n ++ l.exactTail.toList
    else minus negative ++ l.decimal (x.shortest l.tie)
  | none => minus negative ++ l.decimal (x.shortest l.tie)

/-- The sign bit, which zeros and NaNs have as well. -/
def isNegative (x : Float) : Bool := x.toBits.toNat / Nat.pow 2 63 = 1

/-- The text of a double. -/
def Layout.write (l : Layout) (x : Float) : String :=
  if x.isNaN then l.nan
  else if x.isInf then if isNegative x then l.negativeInfinity else l.infinity
  else String.ofList (l.finite (isNegative x) (.ofFloat x))

/-- The layout of the others: shortest digits, always positional. -/
def positional : Layout where
  exact := .never
  exactTail := ""
  signedZero := true
  wholeTail := ""
  scientific := none
  tie := .up
  nan := "NaN"
  infinity := "inf"
  negativeInfinity := "-inf"

/-- What `print` shows: whole numbers that doubles count without gaps are plain integers, and
zero has no sign. -/
def printed : Layout :=
  { positional with exact := .upTo (Nat.pow 2 53), signedZero := false }

/-- Number tokens: whole numbers below `2 ^ 63` carry one decimal place. -/
def inToken : Layout :=
  { positional with exact := .upTo (Nat.pow 2 63 - 1), exactTail := ".0", signedZero := false }

/-- Number literals in a printed tree: every whole number is exact and carries one decimal place. -/
def inTree : Layout :=
  { positional with exact := .always, exactTail := ".0" }

/-- Numbers in JSON, which has no text for those that are not finite. -/
def inJson : Layout :=
  { positional with
    wholeTail := ".0"
    scientific := some ⟨-5, 16, true⟩
    tie := .even
    nan := "null"
    infinity := "null"
    negativeInfinity := "null" }

/-- Numbers inside a signal that escaped: one decimal place at least, an exponent part outside
`1e-4 ≤ x < 1e16`. -/
def inSignal : Layout :=
  { positional with wholeTail := ".0", scientific := some ⟨-4, 16, false⟩ }

end Lox.Number
