import LiveIsolation.Text.Reader
import LiveIsolation.Toml.Basic

/-!
# Reading TOML

The grammar of TOML 1.0. Values nest less than `Toml.depthLimit` deep, which bounds the
recursion, and dotted keys are shorter than that. Integers have 64 bits; a positive number in
floating point must not be too large for a double, and dates and times must exist.
-/

namespace LiveIsolation.Toml

/-- Arrays, inline tables and keys do not reach this depth. -/
def depthLimit : Nat := 80

namespace Grammar

open Reader

/-! ## Blanks -/

def isSpace (c : Char) : Bool := c == ' ' || c == '\t'

def spaces : Reader Unit := do let _ ← run isSpace

def newline : Reader Unit := char '\n' <|> word "\r\n"

/-- A character that may stand in a line; only the tabulator is allowed of the controls. -/
def isLineChar (c : Char) : Bool := c == '\t' || (decide (0x20 ≤ c.toNat) && c.toNat != 0x7F)

def comment : Reader Unit := do char '#'; let _ ← run isLineChar

/-- The end of a line after its content. -/
def endOfLine : Reader Unit := do
  spaces
  let _ ← optional comment
  newline <|> atEnd

/-- Blanks, comments and line breaks between the elements of an array. -/
def gaps : Reader Unit := do
  let breakLine : Reader Unit := do let _ ← optional comment; newline
  let _ ← many ((do let _ ← run1 isSpace) <|> breakLine)

/-! ## Strings -/

/-- The character with a code, if there is one. -/
def scalar? (code : Nat) : Option Char :=
  if code < 0xD800 ∨ (0xDFFF < code ∧ code ≤ 0x10FFFF) then some (Char.ofNat code) else none

/-- A character given by its code in `n` hexadecimal digits. -/
def coded (n : Nat) : Reader Char := do
  let ds ← upTo (satisfy (Digits.isDigit 16)) n
  if ds.length = n then require (scalar? (Digits.number 16 (Digits.values ds))) else failure

/-- The character of an escape, after its backslash. -/
def escaped : Reader Char := do
  match ← satisfy fun _ => true with
  | 'b' => return '\x08'
  | 't' => return '\t'
  | 'n' => return '\n'
  | 'f' => return '\x0c'
  | 'r' => return '\r'
  | '"' => return '"'
  | '\\' => return '\\'
  | 'u' => coded 4
  | 'U' => coded 8
  | _ => failure

def basicChar : Reader Char := do
  let c ← satisfy fun c => isLineChar c && c != '"'
  if c == '\\' then escaped else return c

def literalChar : Reader Char := satisfy fun c => isLineChar c && c != '\''

def lineString (quote : Char) (content : Reader Char) : Reader String :=
  String.ofList <$> between (char quote) (char quote) (many content)

/-- A backslash at the end of a line, with the blanks and line breaks after it. -/
def continuation : Reader Unit := do
  char '\\'
  spaces
  newline
  let _ ← many ((do let _ ← run1 isSpace) <|> newline)

def lineBreak : Reader Char := do newline; return '\n'

/-- One or two quotes that another character follows. -/
def innerQuotes (quote : Char) : Reader (List Char) := do
  let qs ← run1 (· == quote)
  if qs.length ≤ 2 then return qs else failure

/-- The quotes that end a string of several lines; up to two of them belong to the string. -/
def closingQuotes (quote : Char) : Reader (List Char) := do
  let qs ← run1 (· == quote)
  if 3 ≤ qs.length ∧ qs.length ≤ 5 then return qs.drop 3 else failure

/-- A string of several lines. A line break right after the opening quotes does not count. -/
def longString (quote : Char) (content : Reader (List Char)) : Reader String := do
  word (String.ofList [quote, quote, quote])
  let _ ← optional newline
  let parts ← many (content <|> innerQuotes quote)
  return String.ofList (parts.flatten ++ (← closingQuotes quote))

def basicPart : Reader (List Char) :=
  (do continuation; return []) <|> (do return [← basicChar <|> lineBreak])

def literalPart : Reader (List Char) := do return [← literalChar <|> lineBreak]

def string : Reader String :=
  longString '"' basicPart <|> lineString '"' basicChar <|>
    longString '\'' literalPart <|> lineString '\'' literalChar

/-! ## Keys -/

def isBareChar (c : Char) : Bool := c.isAlphanum || c == '_' || c == '-'

def simpleKey : Reader String :=
  lineString '"' basicChar <|> lineString '\'' literalChar <|>
    (String.ofList <$> run1 isBareChar)

/-- A key of one or more parts with dots between them. -/
def key : Reader (List String) := do
  let path ← separated (between spaces spaces simpleKey) (char '.')
  if path.length < depthLimit then return path else failure

/-! ## Numbers -/

/-- Digits of a base, with single underscores between them. -/
def underscored (base : Nat) : Reader (List Nat) := do
  let digit := satisfy (Digits.isDigit base)
  let first ← digit
  let rest ← many ((do char '_'; digit) <|> digit)
  return Digits.values (first :: rest)

def sign : Reader (Option Char) := optional (oneOf ['+', '-'])

/-- A whole number in base ten. One of several digits does not begin with a zero. -/
def decimal : Reader (Bool × List Nat) := do
  let negative := (← sign) == some '-'
  let zero : Reader (List Nat) := do char '0'; return [0]
  return (negative, ← zero <|> underscored 10)

/-- Sixty-four bits hold the integer. -/
def fits (n : Int) : Bool := decide (-(Nat.pow 2 63) ≤ n) && decide (n < Nat.pow 2 63)

def based (opening : String) (base : Nat) : Reader Int := do
  word opening
  return Digits.number base (← underscored base)

def integer : Reader Int := do
  let signed : Reader Int := do
    let (negative, ds) ← decimal
    let n : Int := Digits.number 10 ds
    return if negative then -n else n
  let n ← based "0x" 16 <|> based "0o" 8 <|> based "0b" 2 <|> signed
  if fits n then return n else failure

/-- The number with these digits times a power of ten is too large for a double: it is at
least half a step above the largest one. -/
def overflows (ds : List Nat) (exponent : Int) : Bool :=
  let ds := ds.dropWhile (· == 0)
  let m := Digits.number 10 ds
  let size := exponent + ds.length
  if m = 0 ∨ size < 309 then false
  else if 309 < size then true
  else decide (Nat.pow 2 1024 - Nat.pow 2 970 ≤
    m * Nat.pow 10 exponent.toNat / Nat.pow 10 (-exponent).toNat)

def exponentPart : Reader Int := do
  let _ ← oneOf ['e', 'E']
  let negative := (← sign) == some '-'
  let n : Int := Digits.number 10 (← underscored 10)
  return if negative then -n else n

def float : Reader Unit := do
  let (negative, whole) ← decimal
  let fractional : Reader (List Nat × Int) := do
    char '.'
    let ds ← underscored 10
    return (ds, (← optional exponentPart).getD 0)
  let (fraction, exponent) ← fractional <|> (do return ([], ← exponentPart))
  if !negative && overflows (whole ++ fraction) (exponent - fraction.length) then failure

def specialFloat : Reader Unit := do
  let _ ← sign
  word "inf" <|> word "nan"

/-! ## Dates and times -/

/-- A number of exactly `n` digits within bounds. -/
def field (n low high : Nat) : Reader Nat := do
  let ds ← upTo (satisfy (Digits.isDigit 10)) n
  let v := Digits.number 10 (Digits.values ds)
  if ds.length = n ∧ low ≤ v ∧ v ≤ high then return v else failure

/-- The number of days of a month. -/
def daysIn (year month : Nat) : Nat :=
  if month = 2 then
    if year % 4 = 0 ∧ (year % 100 ≠ 0 ∨ year % 400 = 0) then 29 else 28
  else if month = 4 ∨ month = 6 ∨ month = 9 ∨ month = 11 then 30
  else 31

def calendarDay : Reader Unit := do
  let year ← field 4 0 9999
  char '-'
  let month ← field 2 1 12
  char '-'
  let _ ← field 2 1 (daysIn year month)

def hourAndMinute : Reader Unit := do
  let _ ← field 2 0 23
  char ':'
  let _ ← field 2 0 59

def timeOfDay : Reader Unit := do
  hourAndMinute
  char ':'
  let _ ← field 2 0 60
  let _ ← optional (do char '.'; let _ ← run1 (Digits.isDigit 10))

def zone : Reader Unit :=
  (do let _ ← oneOf ['Z', 'z']) <|> (do let _ ← oneOf ['+', '-']; hourAndMinute)

/-- A day, a day with a time, or a time. -/
def date : Reader Unit := do
  let day : Reader Unit := do
    calendarDay
    let _ ← optional do
      let _ ← oneOf ['T', 't', ' ']
      timeOfDay
      optional zone
  day <|> timeOfDay

/-! ## Values -/

def simpleValue : Reader Toml :=
  (.text <$> string) <|> (do date; return .date) <|> (do float; return .float) <|>
    (do specialFloat; return .float) <|> (.integer <$> integer) <|>
    (do word "true"; return .boolean true) <|> (do word "false"; return .boolean false)

def array (element : Reader Toml) : Reader Toml := do
  char '['
  let elements ← optional do
    let xs ← separated (between gaps gaps element) (char ',')
    let _ ← optional (char ',')
    return xs
  gaps
  char ']'
  return .array (elements.getD [])

/-- A key with its value. -/
def entry (value : Reader Toml) : Reader (List String × Toml) := do
  let path ← key
  char '='
  spaces
  return (path, ← value)

def inlineTable (value : Reader Toml) : Reader Toml := do
  char '\x7b'
  let one : Reader (List String × Toml) := do
    let e ← entry value
    spaces
    return e
  let entries ← optional (separated one (char ','))
  spaces
  char '\x7d'
  require (inlineTable? (entries.getD []))

/-- A value in which arrays and inline tables nest at most `n` deep. -/
def value : Nat → Reader Toml
  | 0 => simpleValue
  | n + 1 => simpleValue <|> array (value n) <|> inlineTable (value n)

/-! ## Documents -/

/-- A header of a table, or of an element of an array of tables. -/
def header : Reader Line := do
  let line ← (.element <$> between (word "[[") (word "]]") key) <|>
    (.header <$> between (char '[') (char ']') key)
  endOfLine
  return line

def entryLine : Reader Line := do
  let (path, v) ← entry (value (depthLimit - 1))
  endOfLine
  return .entry path v

/-- A line; one without content says nothing. -/
def line : Reader (Option Line) :=
  (do comment; newline <|> atEnd; return none) <|> (some <$> header) <|>
    (do newline; return none) <|> (some <$> entryLine)

/-- The lines of a document. A byte order mark may come first. -/
def document : Reader (List Line) := do
  let _ ← optional (char '\uFEFF')
  spaces
  let lines ← many do
    let l ← line
    spaces
    return l
  atEnd
  return lines.filterMap id

end Grammar

/-- Reads a document. -/
def parse? (s : String) : Option Toml := Grammar.document.read? s >>= ofLines?

end LiveIsolation.Toml
