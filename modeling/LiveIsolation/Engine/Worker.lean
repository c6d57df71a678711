import LiveIsolation.Guard
import LiveIsolation.Store.Link

/-!
# Workers

A worker runs the transactions of one client over its own link to the store, one after
another. While a transaction is open, the worker gathers what its commit has to validate and
which rows it has written. A commit or a rollback that cannot go on is kept with the worker
until it can.
-/

namespace LiveIsolation

/-- A transaction that has begun and has not ended. -/
structure OpenTransaction where
  /-- The template that all its statements belong to. -/
  template : Transaction
  /-- Every statement is validated. -/
  sampled : Bool
  obligations : Obligations := {}
  /-- The written rows with the versions that the store reported. -/
  written : List (Place × Nat) := []
  deriving DecidableEq, Repr

/-- The calls that end a transaction. -/
inductive EndCall where
  | commit
  | rollback
  deriving DecidableEq, Repr

/-- A call that cannot go on. -/
inductive Blocked where
  /-- A commit waits for the store, with its locks if it has been validated. -/
  | atGate (guard : Option Guard)
  /-- The transaction has ended with this result, and the worker is stopped at its boundary. -/
  | atBoundary (call : EndCall) (result : Except Fault Unit)

structure Worker where
  id : Nat
  link : Link
  /-- The protocol that the worker's connection runs under. -/
  protocol : Protocol
  /-- The number of the open or the last transaction; zero before the first. -/
  transaction : Nat := 0
  current : Option OpenTransaction := none
  blocked : Option Blocked := none

namespace Worker

/-- The number of obligations of the open transaction. -/
def obligationCount (w : Worker) : Nat := w.current.elim 0 (·.obligations.size)

/-- The open transaction validates every statement. -/
def sampled (w : Worker) : Bool := w.current.any (·.sampled)

end Worker

end LiveIsolation
