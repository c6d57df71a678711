import LiveIsolation.LockTable.Basic
import LiveIsolation.Obligation

/-!
# Held locks

A guard holds the locks of one commit. It takes the locks of a plan in order and all or none:
if one is not granted, those taken before are given back. The holds of a guard are given back
together, and after a commit the known versions of written rows advance.
-/

namespace LiveIsolation

structure Guard where
  requester : Nat
  held : LockPlan := []
  deriving DecidableEq, Repr

namespace LockRequest

/-- The conflict of a request that was not granted. -/
def conflict? (q : LockRequest) : AcquireOutcome → Option Conflict
  | .granted => none
  | .refused => some (.refused q.relation q.key q.kind)
  | .timedOut => some (.timedOut q.relation q.key q.kind)

end LockRequest

namespace LockTable

/-- Gives back every hold of a list. All are tried; the first fault is reported. -/
def releaseAll (t : LockTable) (advance : Bool) : LockPlan → Except Fault Unit × LockTable
  | [] => (.ok (), t)
  | q :: rest =>
    match t.release q.relation q.key q.kind advance with
    | (.ok _, t) => t.releaseAll advance rest
    | (.error e, t) => (.error e, (t.releaseAll advance rest).2)

/-- Takes the locks of a plan, beside those already held. A conflict or a fault gives all of
them back; a fault in giving back after a conflict is reported in its place. -/
def acquireAll (t : LockTable) (requester : Nat) (d : Discipline) (held : LockPlan) :
    LockPlan → Except Fault (LockPlan × List Conflict) × LockTable
  | [] => (.ok (held, []), t)
  | q :: rest =>
    match t.acquire q.relation q.key requester q.kind d with
    | (.error e, t) => (.error e, (t.releaseAll false held).2)
    | (.ok outcome, t) =>
      match q.conflict? outcome with
      | none => t.acquireAll requester d (held ++ [q]) rest
      | some conflict =>
        match t.releaseAll false held with
        | (.ok (), t) => (.ok ([], [conflict]), t)
        | (.error e, t) => (.error e, t)

end LockTable

namespace Guard

/-- A guard for the locks of a plan, or an empty one and the conflict that kept it from
them. -/
def acquire (t : LockTable) (plan : LockPlan) (requester : Nat) (d : Discipline) :
    Except Fault (Guard × List Conflict) × LockTable :=
  match t.acquireAll requester d [] plan with
  | (.ok (held, conflicts), t) => (.ok (⟨requester, held⟩, conflicts), t)
  | (.error e, t) => (.error e, t)

/-- Gives all locks back after a successful commit. -/
def releaseCommitted (g : Guard) (t : LockTable) : Except Fault Unit × LockTable :=
  t.releaseAll true g.held

/-- Gives all locks back and leaves the versions as they are. -/
def releaseAborted (g : Guard) (t : LockTable) : Except Fault Unit × LockTable :=
  t.releaseAll false g.held

/-- Gives all locks back where a commit ends early. A fault has nobody to be reported to and is
only logged. -/
def drop (g : Guard) (t : LockTable) : Option Fault × LockTable :=
  if g.held = [] then (none, t)
  else
    match g.releaseAborted t with
    | (.ok (), t) => (none, t)
    | (.error e, t) => (some e, t)

end Guard

end LiveIsolation
