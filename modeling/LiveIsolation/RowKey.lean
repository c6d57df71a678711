import LiveIsolation.Statement

/-!
# Row keys

Rows are locked by number. The number of a row is derived from the relation and the values
of the WHERE columns: a single integer column is its own number, and any other combination
is hashed. A relation without WHERE columns is locked as a whole under a number of its own.

A hasher is a function of what is written to it, and nothing else is known of it here
(`Hasher`). The one that engines use by default (`WordHash`) reads texts and values as a sequence
of machine words; each word is put in by a rotation, an exclusive or and a multiplication modulo
`2^64`.
-/

namespace LiveIsolation

/-- What is written to a hasher at a time. -/
inductive HashInput where
  | u8 (b : UInt8)
  | u64 (w : UInt64)
  | i64 (n : Int64)
  | usize (n : Nat)
  | bytes (bs : List UInt8)
  deriving DecidableEq, Repr

/-- A hasher: what it comes to after it has been written to. -/
abbrev Hasher := List HashInput → UInt64

namespace HashInput

def text (s : String) : HashInput := .bytes s.toUTF8.toList

end HashInput

/-- A value is written as a byte for its type and its content. -/
def Value.hashed : Value → List HashInput
  | .null => [.u8 0]
  | .bool b => [.u8 1, .u8 (if b then 1 else 0)]
  | .int n => [.u8 2, .i64 n]
  | .float bits => [.u8 3, .u64 bits]
  | .text s => [.u8 4, .text s, .u8 0xff]
  | .bytes bs => [.u8 5, .usize bs.length, .bytes bs]

/-- Columns are written in order, each with its value. -/
def Columns.hashed (columns : Columns) : List HashInput :=
  columns.flatMap fun c => .text c.1 :: c.2.hashed

/-- A hash in the making. -/
structure WordHash where
  state : UInt64 := 0
  deriving DecidableEq, Repr

namespace WordHash

def multiplier : UInt64 := 0x517cc1b727220a95

def rotateLeft (x : UInt64) (n : UInt64) : UInt64 := (x <<< n) ||| (x >>> (64 - n))

/-- Puts one word in. -/
def word (h : WordHash) (w : UInt64) : WordHash :=
  ⟨(rotateLeft h.state 5 ^^^ w) * multiplier⟩

/-- The number of a list of bytes, lowest byte first. -/
def littleEndian (bytes : List UInt8) : UInt64 :=
  bytes.foldr (fun b acc => acc * 256 + b.toUInt64) 0

/-- Bytes go in as words of eight bytes as long as there are eight, then of four, two and
one. -/
def bytes (h : WordHash) (bs : List UInt8) : WordHash :=
  if 8 ≤ bs.length then (h.word (littleEndian (bs.take 8))).bytes (bs.drop 8)
  else
    let (h, bs) := if 4 ≤ bs.length then (h.word (littleEndian (bs.take 4)), bs.drop 4) else (h, bs)
    let (h, bs) := if 2 ≤ bs.length then (h.word (littleEndian (bs.take 2)), bs.drop 2) else (h, bs)
    match bs with
    | [] => h
    | b :: _ => h.word b.toUInt64
termination_by bs.length
decreasing_by simp; omega

def write (h : WordHash) : HashInput → WordHash
  | .u8 b => h.word b.toUInt64
  | .u64 w => h.word w
  | .i64 n => h.word n.toUInt64
  | .usize n => h.word (UInt64.ofNat n)
  | .bytes bs => h.bytes bs

/-- The hasher of machine words. -/
def hasher : Hasher := fun inputs => (inputs.foldl write {}).state

end WordHash

/-- A row of a relation. -/
abbrev Place := String × RowKey

/-- Rows in the order of their relations, then of their numbers. -/
def placeLt (a b : Place) : Bool :=
  textLt a.1 b.1 || (decide (a.1 = b.1) && decide (a.2 < b.2))

/-- How the rows of a relation are numbered. -/
abbrev KeyRule := String → Columns → Except Fault RowKey

namespace KeyRule

/-- The rule numbers every row. -/
def Total (keys : KeyRule) : Prop := ∀ relation columns, ∃ key, keys relation columns = .ok key

/-- The number of a row, or zero if the rule refuses to number it. -/
def number (keys : KeyRule) (relation : String) (columns : Columns) : RowKey :=
  (keys relation columns).toOption.getD 0

theorem Total.eq_number {keys : KeyRule} (h : keys.Total) (relation : String)
    (columns : Columns) : keys relation columns = .ok (keys.number relation columns) := by
  obtain ⟨key, hkey⟩ := h relation columns
  rw [number, hkey]
  rfl

end KeyRule

namespace RowKey

/-- The number of a relation as a whole. -/
def ofRelation (hash : Hasher) (relation : String) : RowKey := hash [.u8 0xfe, .text relation]

/-- The hash of columns. -/
def ofColumns (hash : Hasher) (columns : Columns) : RowKey := hash columns.hashed

/-- The number of a row by a hasher. -/
def derive (hash : Hasher) (relation : String) (columns : Columns) : RowKey :=
  match columns with
  | [] => ofRelation hash relation
  | [(_, .int n)] => n.toUInt64
  | _ => ofColumns hash columns

/-- The rule of a hasher never fails. -/
def hashed (hash : Hasher) : KeyRule := fun relation columns => .ok (derive hash relation columns)

/-- The standard rule. -/
def standard : KeyRule := hashed WordHash.hasher

theorem total_hashed (hash : Hasher) : (hashed hash).Total := fun _ _ => ⟨_, rfl⟩

/-- A rule that numbers rows by an integer in the first column and refuses all other rows;
a relation without WHERE columns has the number zero. -/
def firstInteger : KeyRule := fun relation columns =>
  match columns with
  | [] => .ok 0
  | (_, .int n) :: _ => .ok n.toUInt64
  | _ => .error (.reported .invalidInput ("no key for " ++ relation))

end RowKey

end LiveIsolation
