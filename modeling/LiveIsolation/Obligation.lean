import LiveIsolation.RowKey
import LiveIsolation.Transaction

/-!
# Obligations

A statement that has to be validated leaves an obligation: the row that it touched and the
version that it saw there. The obligations of a transaction are kept apart for the two
disciplines. At commit they become a lock plan, which asks for each row once, with the
strongest kind that any obligation on the row needs, in the order of relations and rows.
-/

namespace LiveIsolation

structure Obligation where
  statement : StatementRef
  relation : String
  key : RowKey
  kind : OperationKind
  /-- The version that the statement saw; none if the row did not exist. -/
  observed : Option Nat
  deriving DecidableEq, Repr

/-- A lock that a commit asks for. -/
structure LockRequest where
  relation : String
  key : RowKey
  kind : LockKind
  deriving DecidableEq, Repr

abbrev LockPlan := List LockRequest

namespace Obligation

def place (o : Obligation) : Place := (o.relation, o.key)

def lockKind (o : Obligation) : LockKind := o.kind.lockKind

/-- A read of a row that an obligation of the list writes needs no obligation of its own. -/
def coveredBy (o : Obligation) (earlier : List Obligation) : Bool :=
  o.kind.isRead && earlier.any fun e => e.kind.isWrite && e.place == o.place

/-- Puts an obligation behind the earlier ones, unless these cover it. -/
def record (earlier : List Obligation) (o : Obligation) : List Obligation :=
  if o.coveredBy earlier then earlier else earlier ++ [o]

theorem mem_record {earlier : List Obligation} {o x : Obligation} :
    x ∈ record earlier o ↔ x ∈ earlier ∨ (x = o ∧ o.coveredBy earlier = false) := by
  unfold record
  split <;> simp_all

end Obligation

/-- The locks for a list of obligations, each row once and in order. -/
def LockPlan.ofObligations (os : List Obligation) : LockPlan :=
  let kinds := os.foldl (fun (kinds : List (Place × LockKind)) o =>
    Ordered.insertWith placeLt LockKind.max o.place o.lockKind kinds) []
  kinds.map fun ((relation, key), kind) => ⟨relation, key, kind⟩

/-- What a transaction has to validate, by discipline. -/
structure Obligations where
  readCommitted : List Obligation := []
  snapshot : List Obligation := []
  deriving DecidableEq, Repr

namespace Obligations

/-- The obligations under a discipline, in the order of their statements. -/
def under (os : Obligations) : Discipline → List Obligation
  | .readCommitted => os.readCommitted
  | .snapshot => os.snapshot

/-- Records an obligation under each discipline that asks for it. -/
def record (os : Obligations) (o : Obligation) (readCommitted snapshot : Bool) : Obligations :=
  { readCommitted :=
      if readCommitted then Obligation.record os.readCommitted o else os.readCommitted
    snapshot := if snapshot then Obligation.record os.snapshot o else os.snapshot }

/-- The locks that a commit takes under a discipline. -/
def plan (os : Obligations) (d : Discipline) : LockPlan := .ofObligations (os.under d)

/-- The number of obligations under both disciplines. -/
def size (os : Obligations) : Nat := os.readCommitted.length + os.snapshot.length

theorem under_record (os : Obligations) (o : Obligation) (readCommitted snapshot : Bool)
    (d : Discipline) :
    (os.record o readCommitted snapshot).under d =
      if (match d with | .readCommitted => readCommitted | .snapshot => snapshot)
      then Obligation.record (os.under d) o else os.under d := by
  cases d <;> rfl

end Obligations

end LiveIsolation
