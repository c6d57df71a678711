/-!
# Isolation protocols

The vocabulary of isolation: what a statement does to its relation, the two kinds of
validation lock, the native levels of a store, and the protocols that workers run under.
A protocol that is weaker than serializability names the discipline by which commits are
validated. While an engine moves from one protocol to another, commits follow the stricter
of the two (`Protocol.safeTransition`).
-/

namespace LiveIsolation

inductive OperationKind where
  | read
  | write
  | scan
  deriving DecidableEq, Repr, Inhabited

inductive LockKind where
  | shared
  | exclusive
  deriving DecidableEq, Repr, Inhabited

/-- The native level requested from a store. -/
inductive IsolationLevel where
  | serializable
  | snapshot
  | readCommitted
  deriving DecidableEq, Repr, Inhabited

/-- The discipline of commit validation. -/
inductive Discipline where
  | snapshot
  | readCommitted
  deriving DecidableEq, Repr, Inhabited

inductive Protocol where
  | serializable
  | snapshot
  | readCommitted
  deriving DecidableEq, Repr, Inhabited

namespace OperationKind

def isWrite : OperationKind → Bool
  | .write => true
  | _ => false

/-- Reads and scans. -/
def isRead (k : OperationKind) : Bool := !k.isWrite

/-- A write is validated under an exclusive lock, any other statement under a shared one. -/
def lockKind (k : OperationKind) : LockKind := if k.isWrite then .exclusive else .shared

theorem lockKind_eq_exclusive_iff {k : OperationKind} :
    k.lockKind = .exclusive ↔ k = .write := by
  cases k <;> simp [lockKind, isWrite]

end OperationKind

namespace LockKind

/-- The stronger of two kinds. -/
def max : LockKind → LockKind → LockKind
  | .shared, .shared => .shared
  | _, _ => .exclusive

/-- The name of the kind in reports. -/
def name : LockKind → String
  | .shared => "Shared"
  | .exclusive => "Exclusive"

theorem max_eq_exclusive_iff {a b : LockKind} :
    a.max b = .exclusive ↔ a = .exclusive ∨ b = .exclusive := by
  cases a <;> cases b <;> simp [max]

theorem max_comm (a b : LockKind) : a.max b = b.max a := by
  cases a <;> cases b <;> rfl

theorem max_assoc (a b c : LockKind) : (a.max b).max c = a.max (b.max c) := by
  cases a <;> cases b <;> cases c <;> rfl

end LockKind

namespace Protocol

def level : Protocol → IsolationLevel
  | .serializable => .serializable
  | .snapshot => .snapshot
  | .readCommitted => .readCommitted

/-- The discipline of commits under the protocol; a serializable store needs none. -/
def discipline? : Protocol → Option Discipline
  | .serializable => none
  | .snapshot => some .snapshot
  | .readCommitted => some .readCommitted

/-- The protocol that commits follow between `a` and `b`: read-committed validation if either
side runs it, else snapshot validation if either side runs that. -/
def safeTransition : Protocol → Protocol → Protocol
  | .readCommitted, _ | _, .readCommitted => .readCommitted
  | .snapshot, _ | _, .snapshot => .snapshot
  | .serializable, .serializable => .serializable

/-- The short name of a protocol. -/
def name : Protocol → String
  | .serializable => "ser"
  | .snapshot => "si"
  | .readCommitted => "rc"

/-- Reads a protocol name that is already in lower case. -/
def ofName? : String → Option Protocol
  | "ser" | "serializable" => some .serializable
  | "si" | "si_tailor" => some .snapshot
  | "rc" | "rc_tailor" => some .readCommitted
  | _ => none

@[simp] theorem ofName?_name (p : Protocol) : ofName? p.name = some p := by
  cases p <;> rfl

@[simp] theorem safeTransition_self (p : Protocol) : p.safeTransition p = p := by
  cases p <;> rfl

theorem safeTransition_comm (a b : Protocol) : a.safeTransition b = b.safeTransition a := by
  cases a <;> cases b <;> rfl

end Protocol

end LiveIsolation
