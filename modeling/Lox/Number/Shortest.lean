/-! Doubles as exact naturals, and the fewest decimal digits that read back as a given double. -/
namespace Lox.Number

/-- The finite magnitude `mantissa * 2 ^ scale`. It is `tight` when its lower neighbour is half
as far away as its upper one. -/
structure Magnitude where
  mantissa : Nat
  scale : Int
  tight : Bool
  deriving DecidableEq, Repr

/-- The magnitude of the bits of a finite double; the sign bit is ignored. -/
def Magnitude.ofBits (bits : UInt64) : Magnitude :=
  let field := (bits >>> 52).toNat % 2048
  let low := bits.toNat % Nat.pow 2 52
  if field = 0 then ⟨low, -1074, false⟩
  else ⟨Nat.pow 2 52 + low, (field : Int) - 1075, low == 0 && 1 < field⟩

def Magnitude.ofFloat (x : Float) : Magnitude := .ofBits x.toBits

/-- The natural number equal to the magnitude, if there is one. -/
def Magnitude.whole? (x : Magnitude) : Option Nat :=
  let unit := Nat.pow 2 (-x.scale).toNat
  if x.mantissa % unit = 0 then some (x.mantissa / unit * Nat.pow 2 x.scale.toNat) else none

/-- `digits * 10 ^ exponent`. -/
structure Decimal where
  digits : Nat
  exponent : Int
  deriving DecidableEq, Repr

/-- The digits of the coefficient, most significant first. -/
def Decimal.text (d : Decimal) : List Char := Nat.toDigits 10 d.digits

/-- The decimal exponent of the leading digit. -/
def Decimal.leading (d : Decimal) : Int := (d.text.length : Int) - 1 + d.exponent

/-- The reals that round to one magnitude, everything in units of `10 ^ exponent`. The ends
belong to the interval when it is `closed`. -/
structure Interval where
  lower : Nat
  value : Nat
  upper : Nat
  closed : Bool
  exponent : Int
  deriving DecidableEq, Repr

/-- A quarter of the spacing of the magnitude is a natural multiple of a power of ten, so the
value and both half-way points are too. -/
def Magnitude.interval (x : Magnitude) : Interval :=
  let quarter := x.scale - 2
  let unit := Nat.pow 2 quarter.toNat * Nat.pow 5 (-quarter).toNat
  { lower := (4 * x.mantissa - if x.tight then 1 else 2) * unit
    value := 4 * x.mantissa * unit
    upper := (4 * x.mantissa + 2) * unit
    closed := x.mantissa % 2 == 0
    exponent := min quarter 0 }

def Interval.contains (i : Interval) (n : Nat) : Bool :=
  if i.closed then i.lower ≤ n && n ≤ i.upper else i.lower < n && n < i.upper

/-- Which of two equally near neighbours is taken. -/
inductive Tie where
  | up | even
  deriving DecidableEq, Repr

/-- The nearer of the two multiples of `10 ^ drop` around the value, among those in the interval;
the answer counts multiples. -/
def Interval.onGrid (i : Interval) (tie : Tie) (drop : Nat) : Option Nat :=
  let step := Nat.pow 10 drop
  let below := i.value / step
  let above := below + 1
  match i.contains (below * step), i.contains (above * step) with
  | false, false => none
  | true, false => some below
  | false, true => some above
  | true, true =>
    match compare (i.value - below * step) (above * step - i.value) with
    | .lt => some below
    | .gt => some above
    | .eq =>
      match tie with
      | .up => some above
      | .even => some (if below % 2 = 0 then below else above)

/-- The coarsest grid `10 ^ drop` and below that meets the interval; the finest one always does. -/
def Interval.select (i : Interval) (tie : Tie) : Nat → Decimal
  | 0 => ⟨i.value, i.exponent⟩
  | drop + 1 =>
    match i.onGrid tie (drop + 1) with
    | some n => ⟨n, i.exponent + (drop + 1 : Nat)⟩
    | none => i.select tie drop

/-- The fewest digits that read back as the magnitude, and of those the nearest to it. -/
def Magnitude.shortest (x : Magnitude) (tie : Tie) : Decimal :=
  if x.mantissa = 0 then ⟨0, 0⟩
  else x.interval.select tie (Nat.toDigits 10 x.interval.value).length

end Lox.Number
