import LiveIsolation.Store.Basic

/-!
# Connections

A connection runs the statements of one transaction after another. Its writes are buffered
until they are committed together or rolled back, and it sees its own writes before those of
others. A write reports the version that its commit will give the row if nobody else commits
the row in between.
-/

namespace LiveIsolation

structure Connection where
  id : Nat
  /-- The buffered writes: the value and the version that was reported for it. -/
  writes : List (Place × Row) := []
  deriving DecidableEq, Repr

namespace Store

def connect (s : Store) : Connection × Store :=
  ({ id := s.nextConnection }, { s with nextConnection := s.nextConnection + 1 })

/-- The row that a statement touches. -/
def placeOf (s : Store) (statement : Statement) (args : List Value) : Except Fault Place := do
  let columns ← statement.resolve args
  let key ← s.keys statement.relation columns
  return (statement.relation, key)

end Store

/-- The value that a write puts into its row: the first argument that is not compared with a
column. -/
def Statement.writtenValue (statement : Statement) (args : List Value) : Value :=
  let free := args.zipIdx.find? fun (_, i) => !statement.bindings.any (·.placeholder == i)
  free.elim .null (·.1)

namespace Connection

def pending? (c : Connection) (place : Place) : Option Row := c.writes.lookup place

/-- A read answers the connection's own write, or else the committed row. -/
def read (c : Connection) (s : Store) (place : Place) : Outcome :=
  match (c.pending? place).or (s.row? place) with
  | some row => ⟨[[row.value]], some row.version⟩
  | none => {}

/-- A write is buffered; all writes of a transaction to one row report one version. -/
def write (c : Connection) (s : Store) (place : Place) (value : Value) : Outcome × Connection :=
  let version :=
    match c.pending? place with
    | some row => row.version
    | none => ((s.row? place).getD {}).version + 1
  (⟨[], some version⟩,
    { c with
      writes := Ordered.insertWith placeLt (fun _ new => new) place ⟨value, version⟩ c.writes })

def execute (c : Connection) (s : Store) (statement : Statement) (args : List Value) :
    Except Fault (Outcome × Connection) := do
  let place ← s.placeOf statement args
  s.available
  if statement.kind.isWrite then return c.write s place (statement.writtenValue args)
  else return (c.read s place, c)

/-- Commits all buffered writes. A commit that fails keeps them. -/
def commit (c : Connection) (s : Store) : Except Fault (Connection × Store) := do
  s.available
  let s := c.writes.foldl (fun (s : Store) w => s.write w.1 w.2.value) s
  return ({ c with writes := [] }, { s with commits := s.commits + 1 })

def rollback (c : Connection) : Connection := { c with writes := [] }

theorem commit_writes {c d : Connection} {s t : Store} (h : c.commit s = .ok (d, t)) :
    d.writes = [] ∧ s.unavailable = false := by
  unfold commit Store.available at h
  split at h
  · simp [bind, Except.bind] at h
  · rename_i hs
    simp only [bind, Except.bind, pure, Except.pure, Except.ok.injEq, Prod.mk.injEq] at h
    exact ⟨by rw [← h.1], by simpa using hs⟩

end Connection

end LiveIsolation
