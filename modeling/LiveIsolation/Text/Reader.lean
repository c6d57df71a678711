/-!
# Readers

A reader takes a value from the front of a text and leaves the rest, or fails. Readers are
put together in sequence, and by ordered choice: an alternative is tried on the whole text if
those before it have failed. A repetition ends where its reader fails for the first time; it
takes at most as many values as there are characters.
-/

namespace LiveIsolation

abbrev Reader := StateT (List Char) Option

namespace Reader

variable {α : Type}

/-- The next character that satisfies a condition. -/
def satisfy (p : Char → Bool) : Reader Char := fun t =>
  match t with
  | c :: rest => if p c then some (c, rest) else none
  | [] => none

def char (c : Char) : Reader Unit := do let _ ← satisfy (· == c)

/-- One of several characters. -/
def oneOf (cs : List Char) : Reader Char := satisfy cs.contains

def word (w : String) : Reader Unit := fun t =>
  if w.toList.isPrefixOf t then some ((), t.drop w.length) else none

/-- The longest run of characters that satisfy a condition. -/
def run (p : Char → Bool) : Reader (List Char) := fun t => some (t.takeWhile p, t.dropWhile p)

/-- A run of at least one character. -/
def run1 (p : Char → Bool) : Reader (List Char) := do
  let c ← satisfy p
  return c :: (← run p)

/-- The text has ended. -/
def atEnd : Reader Unit := fun t => if t.isEmpty then some ((), t) else none

/-- At most `n` values, as many as there are. -/
def upTo (r : Reader α) : Nat → Reader (List α)
  | 0 => pure []
  | n + 1 => do
    match ← optional r with
    | none => return []
    | some a => return a :: (← upTo r n)

/-- As many values as there are. -/
def many (r : Reader α) : Reader (List α) := fun t => upTo r t.length t

/-- Values with separators between them, at least one. -/
def separated (r : Reader α) (separator : Reader Unit) : Reader (List α) := do
  let a ← r
  return a :: (← many (do separator; r))

/-- What a reader takes between two others. -/
def between (before after : Reader Unit) (r : Reader α) : Reader α := do
  before
  let a ← r
  after
  return a

/-- Fails unless there is a value. -/
def require : Option α → Reader α
  | some a => pure a
  | none => failure

/-- The value of a whole text. -/
def read? (r : Reader α) (s : String) : Option α :=
  match r s.toList with
  | some (a, []) => some a
  | _ => none

theorem run_append (p : Char → Bool) (t : List Char) :
    ∃ taken rest, run p t = some (taken, rest) ∧ taken ++ rest = t :=
  ⟨_, _, rfl, List.takeWhile_append_dropWhile⟩

end Reader

/-! ## Digits -/

namespace Digits

/-- The value of a digit in any base up to sixteen. -/
def value? (c : Char) : Option Nat :=
  if '0' ≤ c ∧ c ≤ '9' then some (c.toNat - 48)
  else if 'a' ≤ c ∧ c ≤ 'f' then some (c.toNat - 87)
  else if 'A' ≤ c ∧ c ≤ 'F' then some (c.toNat - 55)
  else none

/-- The character is a digit in a base. -/
def isDigit (base : Nat) (c : Char) : Bool := (value? c).any fun d => decide (d < base)

/-- The values of the digits in a text. -/
def values (cs : List Char) : List Nat := cs.filterMap value?

/-- The number that digits stand for. -/
def number (base : Nat) (ds : List Nat) : Nat := ds.foldl (fun n d => n * base + d) 0

theorem number_append (base : Nat) (ds : List Nat) (d : Nat) :
    number base (ds ++ [d]) = number base ds * base + d := by
  simp [number]

end Digits

end LiveIsolation
