import LiveIsolation.Engine.Boundary
import LiveIsolation.Validation

/-!
# Commits and rollbacks

A commit follows the protocol that the barrier requires when it starts. Under a discipline it
locks the rows of its obligations and compares the versions that they saw with the current
ones before the store commits; the locks are given back afterwards, and the versions of the
written rows become known. A commit that is turned away, or that the store fails, is rolled
back. However the transaction ends, the worker then passes its boundary.
-/

namespace LiveIsolation

namespace Engine

/-- Turns a transaction away for its conflicts. -/
def reject (e : Engine) (conflicts : List Conflict) : Fault × Engine :=
  let e := { e with
    counters :=
      e.counters.conflict (Conflict.lockCount conflicts) (Conflict.staleCount conflicts) }
  match Conflict.settle conflicts with
  | .error f => (f, e)
  | .ok () => (.rejectedWithoutConflict, e)

/-- Locks and validates the obligations of a transaction under a discipline. -/
def lockAndValidate (e : Engine) (w : Worker) (t : OpenTransaction) (d : Discipline) :
    Except Fault Guard × Engine :=
  match Guard.acquire e.locks (t.obligations.plan d) w.transaction d with
  | (.error f, locks) => (.error f, { e with locks })
  | (.ok (_, conflict :: conflicts), locks) =>
    let (f, e) := { e with locks }.reject (conflict :: conflicts)
    (.error f, e)
  | (.ok (guard, []), locks) =>
    let fetch : VersionSource := fun relation key => w.link.fetch e.store (relation, key)
    let check := locks.validate fetch (t.obligations.under d)
    match check.conflicts with
    | .ok [] => (.ok guard, { e with locks := check.table })
    | .error f => (.error f, { e with locks := (guard.releaseAborted check.table).2 })
    | .ok conflicts =>
      match guard.releaseAborted check.table with
      | (.error f, locks) => (.error f, { e with locks })
      | (.ok (), locks) =>
        let (f, e) := { e with locks }.reject conflicts
        (.error f, e)

/-- Makes the versions of written rows known; the first fault ends it. -/
def refresh (locks : LockTable) : List (Place × Nat) → Except Fault Unit × LockTable
  | [] => (.ok (), locks)
  | ((relation, key), version) :: rest =>
    match locks.updateVersion relation key version with
    | (.ok (), locks) => refresh locks rest
    | (.error f, locks) => (.error f, locks)

/-- The commit of a transaction has failed. -/
def abort (e : Engine) (w : Worker) (f : Fault) : List EngineEvent × Engine :=
  let (e, w) := e.abandon w
  e.passBoundary w .commit (.error f)

/-- The store commits a transaction that may commit. -/
def commitStore (e : Engine) (w : Worker) (t : OpenTransaction) (guard : Option Guard) :
    List EngineEvent × Engine :=
  match w.link.commit e.store with
  | .error f =>
    let locks := guard.elim e.locks fun g => (g.releaseAborted e.locks).2
    { e with locks }.abort w f
  | .ok (link, store) =>
    let (released, locks) : Except Fault Unit × LockTable :=
      match guard with
      | some g => g.releaseCommitted e.locks
      | none => (.ok (), e.locks)
    let (refreshed, locks) := refresh locks t.written
    let (e, w) := { e with store, locks }.finish { w with link } true
    e.passBoundary w .commit (Fault.first released refreshed)

/-- A transaction that may commit comes to the gate of its link. -/
def comeToGate (e : Engine) (w : Worker) (t : OpenTransaction) (guard : Option Guard) :
    List EngineEvent × Engine :=
  match w.link.passGate? with
  | some link => e.commitStore { w with link } t guard
  | none => ([], e.put { w with blocked := some (.atGate guard) })

/-- Starts a commit. Without an open transaction only the boundary is passed. -/
def startCommit (e : Engine) (w : Worker) : List EngineEvent × Engine :=
  match w.current with
  | none => e.passBoundary w .commit (.ok ())
  | some t =>
    match e.barrier.required.discipline? with
    | none => e.comeToGate w t none
    | some d =>
      match e.lockAndValidate w t d with
      | (.ok guard, e) => e.comeToGate w t (some guard)
      | (.error f, e) => e.abort w f

/-- Starts a rollback. -/
def startRollback (e : Engine) (w : Worker) : List EngineEvent × Engine :=
  match w.current with
  | none => e.passBoundary w .rollback (.ok ())
  | some _ =>
    let (result, link) := w.link.rollback
    let (e, w) := e.finish { w with link } false
    e.passBoundary w .rollback result

/-- Starts a call that ends the transaction of a worker. -/
def start (e : Engine) (id : Nat) (call : EndCall) : List EngineEvent × Engine :=
  match e.worker? id, call with
  | none, _ => ([.ended call id (.error (.workerClosed id))], e)
  | some w, .commit => e.startCommit w
  | some w, .rollback => e.startRollback w

/-- Gives a worker's link a permit, which lets a commit at its gate go on. -/
def openGate (e : Engine) (id : Nat) : List EngineEvent × Engine :=
  match e.worker? id with
  | none => ([], e)
  | some w =>
    let w := { w with link := w.link.openGate }
    match w.blocked, w.current with
    | some (.atGate guard), some t => e.comeToGate { w with blocked := none } t guard
    | _, _ => ([], e.put w)

end Engine

end LiveIsolation
