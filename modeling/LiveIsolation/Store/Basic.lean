import LiveIsolation.RowKey

/-!
# Stores

A store holds the committed rows of all relations, each with a version that counts its
changes, and the isolation level that every connection asked for. The levels are recorded
and not enforced. A store that is unavailable fails every call that needs it.

Versions, commits and connections are counted from zero by one at a time, in words of 64 bits. A
row would have to be committed `2 ^ 64` times to fill the word of its version.
-/

namespace LiveIsolation

structure Row where
  value : Value := .null
  version : Nat := 0
  deriving DecidableEq, Repr

/-- The answer to a statement: its rows, and the version of the row that it touched. -/
structure Outcome where
  rows : List (List Value) := []
  version : Option Nat := none
  deriving DecidableEq, Repr

structure Store where
  keys : KeyRule
  /-- The committed rows in order. -/
  rows : List (Place × Row) := []
  /-- The level that a connection asked for last. -/
  levels : List (Nat × IsolationLevel) := []
  unavailable : Bool := false
  commits : Nat := 0
  nextConnection : Nat := 1

namespace Store

def row? (s : Store) (place : Place) : Option Row := s.rows.lookup place

def put (s : Store) (place : Place) (row : Row) : Store :=
  { s with rows := Ordered.insertWith placeLt (fun _ new => new) place row s.rows }

@[simp] theorem row?_put (s : Store) (place p : Place) (row : Row) :
    (s.put place row).row? p = if p = place then some row else s.row? p := by
  simp [row?, put, Ordered.lookup_insertWith_new]

/-- Commits a value to a row, whose version goes up by one. -/
def write (s : Store) (place : Place) (value : Value) : Store :=
  s.put place ⟨value, ((s.row? place).getD {}).version + 1⟩

/-- Commits a row from outside any transaction and answers its version. -/
def seed (s : Store) (place : Place) (value : Value) : Nat × Store :=
  let s := s.write place value
  (((s.row? place).getD {}).version, s)

/-- The call can be served. -/
def available (s : Store) : Except Fault Unit :=
  if s.unavailable then .error .storeUnavailable else .ok ()

def fetch (s : Store) (place : Place) : Except Fault (Option Nat) :=
  s.available.map fun _ => (s.row? place).map (·.version)

def level? (s : Store) (connection : Nat) : Option IsolationLevel := s.levels.lookup connection

/-- Records the level of a connection. -/
def setLevel (s : Store) (connection : Nat) (level : IsolationLevel) : Except Fault Store :=
  s.available.map fun _ =>
    { s with
      levels := Ordered.insertWith (fun a b => decide (a < b)) (fun _ new => new) connection level
        s.levels }

end Store

end LiveIsolation
