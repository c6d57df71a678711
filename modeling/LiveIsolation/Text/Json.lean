import LiveIsolation.Text.Reader

/-!
# JSON tokens

Readers and writers for the tokens of JSON that the encodings of this library need. Numbers
are read into binary floating point by scaling: as many leading digits as 64 bits hold make up
the significand, which is multiplied or divided by a power of ten, so that a value may be off
in its last place.
-/

namespace LiveIsolation.Json

open Reader

def isBlank (c : Char) : Bool := c == ' ' || c == '\t' || c == '\n' || c == '\r'

def blanks : Reader Unit := do let _ ← run isBlank

/-- A character with blanks before it. -/
def symbol (c : Char) : Reader Unit := do blanks; char c

/-- A word with blanks before it. -/
def keyword (w : String) : Reader Unit := do blanks; word w

/-! ## Strings -/

/-- A unit of four hexadecimal digits. -/
def unit : Reader Nat := do
  let digit := satisfy (Digits.isDigit 16)
  return Digits.number 16 (Digits.values [← digit, ← digit, ← digit, ← digit])

/-- The character that one unit stands for by itself. -/
def single? (unit : Nat) : Option Char :=
  if 0xD800 ≤ unit ∧ unit < 0xE000 then none else some (Char.ofNat unit)

/-- The character of two units, the first of the upper and the second of the lower range. -/
def pair? (high low : Nat) : Option Char :=
  if 0xD800 ≤ high ∧ high < 0xDC00 ∧ 0xDC00 ≤ low ∧ low < 0xE000 then
    some (Char.ofNat (0x10000 + (high - 0xD800) * 0x400 + (low - 0xDC00)))
  else none

/-- The characters that have an escape of one letter, with the letter. -/
def escapes : List (Char × Char) :=
  [('"', '"'), ('\\', '\\'), ('b', '\x08'), ('f', '\x0c'), ('n', '\n'), ('r', '\r'), ('t', '\t')]

/-- The character of an escape, after its backslash. -/
def escaped : Reader Char := do
  match ← satisfy fun _ => true with
  | '/' => return '/'
  | 'u' =>
    let first ← unit
    match single? first with
    | some c => return c
    | none =>
      word "\\u"
      require (pair? first (← unit))
  | letter => require (escapes.lookup letter)

def stringChar : Reader Char := do
  let c ← satisfy fun c => decide (0x20 ≤ c.toNat) && c != '"'
  if c == '\\' then escaped else return c

/-- A string with blanks before it. -/
def string : Reader String := do
  String.ofList <$> between (symbol '"') (char '"') (many stringChar)

/-- A character as it stands inside a string. -/
def quoteChar (c : Char) : List Char :=
  match escapes.find? (·.2 == c) with
  | some (letter, _) => ['\\', letter]
  | none =>
    if c.toNat < 0x20 then
      ['\\', 'u', '0', '0', Nat.digitChar (c.toNat / 16), Nat.digitChar (c.toNat % 16)]
    else [c]

def quote (s : String) : String :=
  "\"" ++ String.ofList (s.toList.flatMap quoteChar) ++ "\""

/-! ## Numbers -/

/-- A number as it is written. -/
structure Numeral where
  negative : Bool
  whole : List Nat
  fraction : Option (List Nat)
  exponent : Option Int
  deriving DecidableEq, Repr

def digits : Reader (List Nat) := Digits.values <$> run1 (Digits.isDigit 10)

/-- The digits of a whole part; of several digits the first is not zero. -/
def wholePart : Reader (List Nat) := do
  let ds ← digits
  if ds.length = 1 ∨ ds.head? ≠ some 0 then return ds else failure

/-- An exponent after its letter. -/
def exponentPart : Reader Int := do
  let sign ← optional (oneOf ['+', '-'])
  let n : Int := Digits.number 10 (← digits)
  return if sign == some '-' then -n else n

/-- A number with blanks before it. -/
def numeral : Reader Numeral := do
  blanks
  let sign ← optional (char '-')
  let whole ← wholePart
  let fraction ←
    match ← optional (char '.') with
    | some _ => some <$> digits
    | none => pure none
  let exponent ←
    match ← optional (oneOf ['e', 'E']) with
    | some _ => some <$> exponentPart
    | none => pure none
  return { negative := sign.isSome, whole, fraction, exponent }

namespace Numeral

/-- The integer that the numeral stands for: one without fraction and exponent, and not a
negative zero. -/
def int? (n : Numeral) : Option Int :=
  match n.fraction, n.exponent with
  | none, none =>
    let m := Digits.number 10 n.whole
    if n.negative then if m = 0 then none else some (-(m : Int)) else some m
  | _, _ => none

/-- The significand of the leading digits, and the number of digits left over. -/
def takeWhole (s : Nat) : List Nat → Nat × Nat
  | [] => (s, 0)
  | d :: rest =>
    if s * 10 + d < Nat.pow 2 64 then takeWhole (s * 10 + d) rest else (s, rest.length + 1)

/-- The significand with as many digits of the fraction as it can take, and their number. -/
def takeFraction (s : Nat) : List Nat → Nat × Nat
  | [] => (s, 0)
  | d :: rest =>
    if s * 10 + d < Nat.pow 2 64 then
      let (s, n) := takeFraction (s * 10 + d) rest
      (s, n + 1)
    else (s, 0)

def power (n : Nat) : Float := Float.ofScientific 1 false n

/-- `x` divided by a power of ten, in steps that are themselves finite. -/
def scaleDown (x : Float) (n : Nat) : Float :=
  if n ≤ 308 then x / power n else if x == 0 then x else scaleDown (x / power 308) (n - 308)
termination_by n

/-- `x` multiplied by a power of ten, unless the result is out of range. -/
def scaleUp? (x : Float) (n : Nat) : Option Float :=
  if n ≤ 308 then if (x * power n).isInf then none else some (x * power n)
  else if x == 0 then some x
  else none

/-- The floating-point number that the numeral is read as. -/
def float? (n : Numeral) : Option Float := do
  let (s, left) := takeWhole 0 n.whole
  let (s, taken) := takeFraction s (n.fraction.getD [])
  let exponent := n.exponent.getD 0 + left - taken
  let x := (UInt64.ofNat s).toFloat
  let x ← if 0 ≤ exponent then scaleUp? x exponent.toNat else some (scaleDown x (-exponent).toNat)
  return if n.negative then -x else x

end Numeral

/-- An integer within bounds. -/
def intWithin (low high : Int) : Reader Int := do
  let n ← require (← numeral).int?
  if low ≤ n ∧ n ≤ high then return n else failure

/-! ## Tagged alternatives -/

/-- A value that is one of several alternatives: an alternative without content is a string
that names it, and any alternative is an object whose only key names it. -/
def alternative {α : Type} (bare : String → Option α) (content : String → Reader α) :
    Reader α := do
  let tagged := between (symbol '{') (symbol '}') do
    let name ← string
    symbol ':'
    content name
  let a ← tagged <|> (do require (bare (← string)))
  blanks
  return a

/-- The content of an alternative that has none is null. -/
def bareContent {α : Type} (bare : String → Option α) (name : String) : Reader α := do
  let a ← require (bare name)
  keyword "null"
  return a

/-- An object with one key. -/
def tagged (name content : String) : String := "\x7b" ++ quote name ++ ":" ++ content ++ "\x7d"

end LiveIsolation.Json
