import LiveIsolation.Decimal.Shortest

/-!
# Texts of floating-point numbers

A layout says how the digits of a number are written out. `plain` always writes
positionally and leaves out an empty fraction; `json` keeps one digit after the point
and goes over to an exponent for very large and very small numbers.
-/

namespace LiveIsolation.Decimal

/-- The choices of a printed form. -/
structure Layout where
  tie : Tie
  /-- Written after a number without a fraction. -/
  whole : String
  /-- The positions of the decimal point that are written positionally, if not all are. -/
  positional : Option (Int × Int)
  /-- Written before an exponent that is not negative. -/
  exponentPlus : String

/-- Never an exponent, no `.0`, and a half goes up. -/
def Layout.plain : Layout := ⟨.up, "", none, "e"⟩

/-- Positional with the point at most five places left and sixteen places right of the
first digit, `.0` kept, and a half goes to the even neighbour. -/
def Layout.json : Layout := ⟨.even, ".0", some (-4, 16), "e+"⟩

def zeros (n : Nat) : String := String.ofList (List.replicate n '0')

def takeText (n : Nat) (s : String) : String := String.ofList (s.toList.take n)
def dropText (n : Nat) (s : String) : String := String.ofList (s.toList.drop n)

/-- The number written with a decimal point at its place. -/
def Layout.fixed (l : Layout) (d : Number) : String :=
  let digits := d.text
  let n := digits.toList.length
  if 0 ≤ d.exponent then digits ++ zeros d.exponent.toNat ++ l.whole
  else if 0 < d.point then
    takeText d.point.toNat digits ++ "." ++ dropText d.point.toNat digits
  else "0." ++ zeros ((-d.exponent).toNat - n) ++ digits

/-- The number written with one digit before the point and an exponent. -/
def Layout.scientific (l : Layout) (d : Number) : String :=
  let digits := d.text
  let e := d.point - 1
  let fraction := dropText 1 digits
  takeText 1 digits ++ (if fraction == "" then "" else "." ++ fraction) ++
    (if 0 ≤ e then l.exponentPlus ++ toString e.toNat else "e-" ++ toString (-e).toNat)

def Layout.render (l : Layout) (d : Number) : String :=
  match l.positional with
  | none => l.fixed d
  | some (low, high) =>
    if low ≤ d.point ∧ d.point ≤ high then l.fixed d else l.scientific d

/-- The text of a double. The sign of zero is kept. -/
def Layout.float (l : Layout) (x : Float) : String :=
  let bits := x.toBits
  let magnitude := bits.toNat % Nat.pow 2 63
  let sign := if bits.toNat < Nat.pow 2 63 then "" else "-"
  if magnitude / Nat.pow 2 52 = 2047 then
    if magnitude % Nat.pow 2 52 = 0 then sign ++ "inf" else "NaN"
  else if magnitude = 0 then sign ++ "0" ++ l.whole
  else sign ++ l.render ((Binary.ofBits (UInt64.ofNat magnitude)).shortest l.tie)

end LiveIsolation.Decimal
