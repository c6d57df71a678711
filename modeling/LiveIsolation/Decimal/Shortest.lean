/-!
# Shortest decimals

A positive binary number `m · 2^q` owns the interval of reals that round to it.
`shortest` finds the decimal with the fewest digits in that interval, and among
those the one nearest to the number. The search tests, for one digit, two digits
and so on, the two neighbours of the number on that decimal grid, in exact
arithmetic on natural numbers.
-/

namespace LiveIsolation.Decimal

/-- A decimal `digits · 10^exponent`. -/
structure Number where
  digits : Nat
  exponent : Int
  deriving DecidableEq, Repr

/-- Which neighbour a number exactly between two decimals goes to. -/
inductive Tie where
  | up
  | even
  deriving DecidableEq, Repr

/-- A number `mantissa · 2^exponent` with the reals that round to it: they reach
`above` quarters of a unit up and `below` quarters down, and the two ends belong to
them when `closed`. -/
structure Binary where
  mantissa : Nat
  exponent : Int
  below : Nat
  above : Nat
  closed : Bool
  deriving DecidableEq, Repr

/-- The number of a double's magnitude bits. The gap below a power of two is half the
gap above it, except at the smallest exponent. -/
def Binary.ofBits (bits : UInt64) : Binary :=
  let fraction := bits.toNat % Nat.pow 2 52
  let biased := bits.toNat / Nat.pow 2 52 % Nat.pow 2 11
  let mantissa := if biased = 0 then fraction else fraction + Nat.pow 2 52
  { mantissa
    exponent := ((if biased = 0 then 1 else biased : Nat) : Int) - 1075
    below := if fraction = 0 ∧ 1 < biased then 1 else 2
    above := 2
    closed := mantissa % 2 == 0 }

/-- A scale on which the quarters of a binary number and the points of the grid
`10^grid` are both natural numbers: a quarter counts `quarter`, a point `point`. -/
structure Scale where
  quarter : Nat
  point : Nat

def Scale.of (exponent grid : Int) : Scale :=
  { quarter := Nat.pow 2 (exponent - 2).toNat * Nat.pow 10 (-grid).toNat
    point := Nat.pow 2 (2 - exponent).toNat * Nat.pow 10 grid.toNat }

/-- The decimal point `d · 10^grid` rounds to the number. -/
def Binary.owns (b : Binary) (s : Scale) (d : Nat) : Bool :=
  let place := d * s.point
  let low := (4 * b.mantissa - b.below) * s.quarter
  let high := (4 * b.mantissa + b.above) * s.quarter
  if b.closed then decide (low ≤ place) && decide (place ≤ high)
  else decide (low < place) && decide (place < high)

/-- The better of the two neighbours of the number on a grid, if one of them rounds to it. -/
def Binary.nearest? (b : Binary) (tie : Tie) (grid : Int) : Option Number :=
  let s := Scale.of b.exponent grid
  let value := 4 * b.mantissa * s.quarter
  let d := value / s.point
  let rest := value % s.point
  let lower := b.owns s d
  let upper := b.owns s (d + 1)
  let takeUpper :=
    if lower && upper then
      decide (s.point < 2 * rest) ||
        (decide (2 * rest = s.point) && (match tie with
          | .up => true
          | .even => d % 2 == 1))
    else upper
  if takeUpper then some ⟨d + 1, grid⟩
  else if lower then some ⟨d, grid⟩
  else none

/-- The number of decimal digits of `n`, with one digit for zero. -/
def digitCount (n : Nat) : Nat := (Nat.toDigits 10 n).length

/-- The exponent of the leading decimal digit of `m · 2^q`. -/
def Binary.leading (b : Binary) : Int :=
  if 0 ≤ b.exponent then
    digitCount (b.mantissa * Nat.pow 2 b.exponent.toNat) - 1
  else
    let shift := (-b.exponent).toNat
    let scaled := b.mantissa * Nat.pow 10 shift / Nat.pow 2 shift
    (digitCount scaled : Int) - 1 - shift

/-- Removes the zeros at the end of the digits. -/
def Number.strip : Nat → Number → Number
  | 0, d => d
  | n + 1, d =>
    if d.digits % 10 = 0 ∧ d.digits ≠ 0 then
      Number.strip n ⟨d.digits / 10, d.exponent + 1⟩
    else d

/-- The shortest decimal of a positive number, without zeros at its end. Seventeen digits
always suffice for a double, so the last grid decides when no coarser one does. -/
def Binary.shortest (b : Binary) (tie : Tie) : Number :=
  let lead := b.leading
  let grids := (List.range 17).map fun (n : Nat) => lead - (n : Int)
  match grids.findSome? (b.nearest? tie) with
  | some d => d.strip 20
  | none => ⟨b.mantissa, b.exponent⟩

/-- The digits as text. -/
def Number.text (d : Number) : String := String.ofList (Nat.toDigits 10 d.digits)

/-- The position of the decimal point counted from the first digit. -/
def Number.point (d : Number) : Int := (digitCount d.digits : Int) + d.exponent

end LiveIsolation.Decimal
