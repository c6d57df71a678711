import LiveIsolation.LockTable.Relation

/-!
# Lock tables

A lock table holds the locks of all relations of a workload. Asking for a relation that the
workload does not have is an internal fault.
-/

namespace LiveIsolation

structure LockTable where
  config : LockTableConfig
  /-- The relations in order, each with its locks. -/
  relations : List (String × RelationLocks)

namespace LockTable

/-- An empty table for some relations. A relation needs at least one bucket. -/
def create (relations : List String) (config : LockTableConfig) : Except Fault LockTable :=
  if config.buckets = 0 ∧ relations ≠ [] then .error .noBuckets
  else .ok { config, relations := (Ordered.ofList textLt relations).map (·, {}) }

def find? (t : LockTable) (relation : String) : Option RelationLocks :=
  t.relations.lookup relation

/-- The locks of a relation of the workload. -/
def relation (t : LockTable) (relation : String) : Except Fault RelationLocks :=
  match t.find? relation with
  | some r => .ok r
  | none => .error (.unknownRelation relation)

/-- Sets the locks of a relation. -/
def put (t : LockTable) (relation : String) (r : RelationLocks) : LockTable :=
  { t with relations := Ordered.insertWith textLt (fun _ new => new) relation r t.relations }

@[simp] theorem find?_put (t : LockTable) (relation name : String) (r : RelationLocks) :
    (t.put relation r).find? name = if name = relation then some r else t.find? name := by
  simp [find?, put, Ordered.lookup_insertWith_new]

/-- Changes the locks of one relation. -/
def within {α : Type} (t : LockTable) (relation : String)
    (f : RelationLocks → α × RelationLocks) : Except Fault α × LockTable :=
  match t.find? relation with
  | none => (.error (.unknownRelation relation), t)
  | some r =>
    let (a, r) := f r
    (.ok a, t.put relation r)

/-- The lock of a row, if it has come into being. -/
def lock? (t : LockTable) (relation : String) (key : RowKey) : Option Lock :=
  (t.find? relation).bind (·.find? key)

def attempt (t : LockTable) (relation : String) (key : RowKey) (requester : Nat)
    (kind : LockKind) (d : Discipline) : Except Fault Attempt × LockTable :=
  t.within relation (·.attempt t.config key requester kind d)

def acquire (t : LockTable) (relation : String) (key : RowKey) (requester : Nat)
    (kind : LockKind) (d : Discipline) : Except Fault AcquireOutcome × LockTable :=
  t.within relation (·.acquire t.config key requester kind d)

def release (t : LockTable) (relation : String) (key : RowKey) (kind : LockKind)
    (advance : Bool) : Except Fault (Option Nat) × LockTable :=
  match t.find? relation with
  | none => (.error (.unknownRelation relation), t)
  | some r =>
    match r.release t.config relation key kind advance with
    | .error e => (.error e, t)
    | .ok (v, r) => (.ok v, t.put relation r)

def withdraw (t : LockTable) (relation : String) (key : RowKey) (requester : Nat) :
    Except Fault Unit × LockTable :=
  t.within relation fun r => ((), r.withdraw key requester)

def version? (t : LockTable) (relation : String) (key : RowKey) : Except Fault (Option Nat) :=
  (t.relation relation).map (·.version? key)

def updateVersion (t : LockTable) (relation : String) (key : RowKey) (v : Nat) :
    Except Fault Unit × LockTable :=
  t.within relation fun r => ((), r.updateVersion t.config key v)

def observeVersion (t : LockTable) (relation : String) (key : RowKey) (v : Nat) :
    Except Fault Unit × LockTable :=
  t.within relation fun r => ((), r.observeVersion t.config key v)

def currentVersion (t : LockTable) (relation : String) (key : RowKey)
    (fetch : Except Fault (Option Nat)) : VersionReply × LockTable :=
  match t.within relation (·.currentVersion t.config key fetch) with
  | (.ok reply, t) => (reply, t)
  | (.error e, t) => (⟨.error e, false⟩, t)

end LockTable

end LiveIsolation
