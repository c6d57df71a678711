import LiveIsolation.Lock
import LiveIsolation.Ordered

/-!
# The locks of one relation

The locks of a relation are kept in buckets by row number. A lock comes into being when its
row is first asked for; before a new one is put into a bucket that is too full, the locks of
the bucket that remember nothing are dropped. A bucket counts the releases of its locks,
which is what waiting requesters watch.
-/

namespace LiveIsolation

/-- How long a requester waits for a lock: the number of its waits, and the longest time of
one wait in milliseconds. -/
structure WaitPolicy where
  retries : Nat := 64
  intervalMs : Nat := 1
  deriving DecidableEq, Repr

structure LockTableConfig where
  /-- The number of buckets of a relation. -/
  buckets : Nat := 1024
  /-- A bucket with more locks than this is tidied before it takes another. -/
  pruneThreshold : Nat := 256
  wait : WaitPolicy := {}
  deriving DecidableEq, Repr

namespace WaitPolicy

/-- A requester that is told to wait gives up at once. -/
def noWait : WaitPolicy := { retries := 0, intervalMs := 0 }

end WaitPolicy

namespace LockTableConfig

/-- The bucket of a row. -/
def bucketOf (c : LockTableConfig) (key : RowKey) : Nat := key.toNat % c.buckets

end LockTableConfig

structure RelationLocks where
  /-- The locks in the order of their rows. -/
  entries : List (RowKey × Lock) := []
  /-- The number of releases in a bucket. It is a word of 64 bits, which a bucket would have to be
  released `2 ^ 64` times to fill; waiting requesters only ask whether it has moved. -/
  releases : Nat → Nat := fun _ => 0

/-- The answer to a question for the current version of a row. -/
structure VersionReply where
  version : Except Fault (Option Nat)
  /-- The store was asked. -/
  asked : Bool

/-- The end of an acquisition. -/
inductive AcquireOutcome where
  | granted
  | refused
  | timedOut
  deriving DecidableEq, Repr, Inhabited

namespace RelationLocks

def find? (r : RelationLocks) (key : RowKey) : Option Lock := r.entries.lookup key

/-- The lock of a row; a row without an entry has a lock that was never used. -/
def lockAt (r : RelationLocks) (key : RowKey) : Lock := (r.find? key).getD {}

/-- Sets the lock of a row. -/
def put (r : RelationLocks) (key : RowKey) (l : Lock) : RelationLocks :=
  { r with
    entries := Ordered.insertWith (fun a b => decide (a < b)) (fun _ new => new) key l r.entries }

@[simp] theorem find?_put (r : RelationLocks) (key k : RowKey) (l : Lock) :
    (r.put key l).find? k = if k = key then some l else r.find? k := by
  simp [find?, put, Ordered.lookup_insertWith_new]

/-- Tidies the bucket of a row if it is too full. -/
def prune (r : RelationLocks) (c : LockTableConfig) (key : RowKey) : RelationLocks :=
  let inBucket := fun (e : RowKey × Lock) => c.bucketOf e.1 == c.bucketOf key
  if c.pruneThreshold < r.entries.countP inBucket then
    { r with entries := r.entries.filter fun e => !(inBucket e && e.2.stale) }
  else r

/-- Changes the lock of a row, which comes into being if it was not there. -/
def touch {α : Type} (r : RelationLocks) (c : LockTableConfig) (key : RowKey)
    (f : Lock → α × Lock) : α × RelationLocks :=
  let (a, l) := f (r.lockAt key)
  if (r.find? key).isSome then (a, r.put key l) else (a, (r.prune c key).put key l)

/-- Changes the lock of a row if it is there. -/
def change (r : RelationLocks) (key : RowKey) (f : Lock → Lock) : RelationLocks :=
  match r.find? key with
  | some l => r.put key (f l)
  | none => r

/-- One attempt to take the lock of a row. -/
def attempt (r : RelationLocks) (c : LockTableConfig) (key : RowKey) (requester : Nat)
    (kind : LockKind) (d : Discipline) : Attempt × RelationLocks :=
  r.touch c key fun l => l.attempt requester kind d

def withdraw (r : RelationLocks) (key : RowKey) (requester : Nat) : RelationLocks :=
  r.change key (·.withdraw requester)

/-- One attempt of an acquisition that has `left` waits left. A requester that gives up is
pending no more; no outcome means that it waits. -/
def tryOnce (r : RelationLocks) (c : LockTableConfig) (key : RowKey) (requester : Nat)
    (kind : LockKind) (d : Discipline) (left : Nat) : Option AcquireOutcome × RelationLocks :=
  match r.attempt c key requester kind d with
  | (.granted, r) => (some .granted, r)
  | (.refused, r) => (some .refused, r.withdraw key requester)
  | (.wait, r) => if left = 0 then (some .timedOut, r.withdraw key requester) else (none, r)

/-- An acquisition during which nobody else acts, so that each wait runs to its end. -/
def acquireWithin (r : RelationLocks) (c : LockTableConfig) (key : RowKey) (requester : Nat)
    (kind : LockKind) (d : Discipline) : Nat → AcquireOutcome × RelationLocks
  | 0 =>
    let (outcome, r) := r.tryOnce c key requester kind d 0
    (outcome.getD .timedOut, r)
  | left + 1 =>
    match r.tryOnce c key requester kind d (left + 1) with
    | (some outcome, r) => (outcome, r)
    | (none, r) => r.acquireWithin c key requester kind d left

def acquire (r : RelationLocks) (c : LockTableConfig) (key : RowKey) (requester : Nat)
    (kind : LockKind) (d : Discipline) : AcquireOutcome × RelationLocks :=
  r.acquireWithin c key requester kind d c.wait.retries

/-- Counts a release in the bucket of a row. -/
def signal (r : RelationLocks) (c : LockTableConfig) (key : RowKey) : RelationLocks :=
  { r with
    releases := fun b => if b = c.bucketOf key then r.releases b + 1 else r.releases b }

/-- The number of releases that a requester for the row has to watch. -/
def generation (r : RelationLocks) (c : LockTableConfig) (key : RowKey) : Nat :=
  r.releases (c.bucketOf key)

/-- Gives one hold back. If `advance` is set, the release of a writer advances a known
version. The answer is the version then known. -/
def release (r : RelationLocks) (c : LockTableConfig) (relation : String) (key : RowKey)
    (kind : LockKind) (advance : Bool) : Except Fault (Option Nat × RelationLocks) :=
  match r.find? key with
  | none => .error (.unknownKey relation key)
  | some l =>
    match l.release kind with
    | (.error e, _) => .error e
    | (.ok (), l) =>
      let l := if advance && kind == .exclusive then l.advanceVersion else l
      .ok (l.version, (r.put key l).signal c key)

def version? (r : RelationLocks) (key : RowKey) : Option Nat := (r.find? key).bind (·.version)

def updateVersion (r : RelationLocks) (c : LockTableConfig) (key : RowKey) (v : Nat) :
    RelationLocks :=
  (r.touch c key fun l => ((), l.updateVersion v)).2

def observeVersion (r : RelationLocks) (c : LockTableConfig) (key : RowKey) (v : Nat) :
    RelationLocks :=
  (r.touch c key fun l => ((), l.observeVersion v)).2

/-- The known version of a row, or else the version that a store reports, which is then
known. -/
def currentVersion (r : RelationLocks) (c : LockTableConfig) (key : RowKey)
    (fetch : Except Fault (Option Nat)) : VersionReply × RelationLocks :=
  match r.version? key, fetch with
  | some v, _ => (⟨.ok (some v), false⟩, r)
  | none, .ok (some v) => (⟨.ok (some v), true⟩, r.observeVersion c key v)
  | none, .ok none => (⟨.ok none, true⟩, r)
  | none, .error e => (⟨.error e, true⟩, r)

end RelationLocks

end LiveIsolation
