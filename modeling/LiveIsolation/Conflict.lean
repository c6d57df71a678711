import LiveIsolation.Protocol

/-!
# Conflicts

The reasons for which validation turns a commit away: a lock that was refused, a lock that
did not come in time, and a row whose version is no longer the one that was observed.
-/

namespace LiveIsolation

/-- The number by which a row of a relation is locked. -/
abbrev RowKey := UInt64

inductive Conflict where
  | refused (relation : String) (key : RowKey) (kind : LockKind)
  | timedOut (relation : String) (key : RowKey) (kind : LockKind)
  | stale (relation : String) (key : RowKey) (observed current : Nat)
  deriving DecidableEq, Repr

namespace Conflict

def isLock : Conflict → Bool
  | .stale .. => false
  | _ => true

/-- A row as reports name it. -/
def placeName (relation : String) (key : RowKey) : String :=
  relation ++ "/" ++ toString key.toNat

def describe : Conflict → String
  | .refused r k kind => kind.name ++ " lock refused on " ++ placeName r k
  | .timedOut r k kind => kind.name ++ " lock wait timed out on " ++ placeName r k
  | .stale r k observed current =>
    "version mismatch on " ++ placeName r k ++ ": observed " ++ toString observed ++
      ", current " ++ toString current

end Conflict

end LiveIsolation
