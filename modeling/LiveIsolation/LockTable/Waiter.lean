import LiveIsolation.LockTable.Basic

/-!
# Waiting requesters

An acquisition beside others goes in steps. A requester first reads the number of releases in
the bucket of its row, then makes an attempt, and if it is told to wait goes to sleep, unless
the number has moved on since; a release in the bucket wakes it for another attempt. A sleeper
whose time is up (`Waiter.elapse`) also makes another attempt.
-/

namespace LiveIsolation

/-- How far an acquisition has come. -/
inductive WaitPhase where
  | ready
  | read (generation : Nat)
  | waiting (generation : Nat)
  | ended (outcome : AcquireOutcome)
  deriving DecidableEq, Repr, Inhabited

structure Waiter where
  relation : String
  key : RowKey
  requester : Nat
  kind : LockKind
  discipline : Discipline
  /-- The number of times the requester was told to wait. -/
  waits : Nat := 0
  phase : WaitPhase := .ready
  deriving DecidableEq, Repr

namespace Waiter

def outcome? (w : Waiter) : Option AcquireOutcome :=
  match w.phase with
  | .ended outcome => some outcome
  | _ => none

/-- The step that a requester can take by itself, if there is one. -/
def step (t : LockTable) (w : Waiter) : Option (Waiter × LockTable) :=
  match t.find? w.relation, w.phase with
  | none, _ => none
  | some r, .ready => some ({ w with phase := .read (r.generation t.config w.key) }, t)
  | some r, .read g =>
    let left := t.config.wait.retries - w.waits
    match r.tryOnce t.config w.key w.requester w.kind w.discipline left with
    | (some outcome, r) => some ({ w with phase := .ended outcome }, t.put w.relation r)
    | (none, r) =>
      some ({ w with waits := w.waits + 1, phase := .waiting g }, t.put w.relation r)
  | some r, .waiting g =>
    if r.generation t.config w.key = g then none else some ({ w with phase := .ready }, t)
  | some _, .ended _ => none

/-- The time of a sleeper is up. -/
def elapse (w : Waiter) : Waiter :=
  match w.phase with
  | .waiting _ => { w with phase := .ready }
  | _ => w

/-- Up to `n` steps of a requester. -/
def run : Nat → LockTable → Waiter → Waiter × LockTable
  | 0, t, w => (w, t)
  | n + 1, t, w =>
    match w.step t with
    | some (w, t) => run n t w
    | none => (w, t)

/-- The steps of a requester until it sleeps or has ended, while nobody else acts. A requester
that is awake needs three: it reads, attempts, and finds the number of releases unmoved. -/
def settle (t : LockTable) (w : Waiter) : Waiter × LockTable := run 4 t w

end Waiter

end LiveIsolation
