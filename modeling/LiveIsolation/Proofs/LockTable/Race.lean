import LiveIsolation.Proofs.LockTable.Guard

/-!
# Commits side by side

Any number of transactions commit at the same time over one lock table. Each takes the locks of
its plan one after another, validates its obligations and gives the locks back, and between any
two of its moves the others may move. A move is one visit to a single lock, so that nothing
which is not atomic in a lock table is atomic here: a request that is not granted is withdrawn
in a move of its own, and between the question for a version, the answer of the store and the
moment when it becomes known others may come first.

## Implementation notes

A commit that is told to wait may try again at any time, whether or not a lock has been given
back since, but not more often than its table allows. A guard may be given back at any time after
all its locks were granted, as after a commit or not, also while the validation still goes on.
So a race has all courses that commits can take, and some more. A commit that nobody disturbs
does what the functions for a whole commit do (`CommitCall.course_acquire`,
`CommitCall.course_validate`, `CommitCall.course_releaseAll`).
-/

namespace LiveIsolation

/-- How far the question for the version of a row has come. -/
inductive Lookup where
  | unasked
  /-- The table knows none, and the store has been asked. -/
  | asking
  /-- The store has told a version, which is not known yet. -/
  | told (version : Nat)
  /-- The version has become known, unless another one was first. -/
  | learned
  deriving DecidableEq, Repr

inductive CommitStage where
  | idle
  /-- The rest of the plan has still to be taken. The commit was told to wait for the first of
  these locks a number of times. -/
  | locking (rest : LockPlan) (waits : Nat)
  /-- A request that was not granted has still to be withdrawn. -/
  | withdrawing (q : LockRequest)
  /-- The rest of the obligations has still to be validated. -/
  | validating (rest : List Obligation) (found : List Conflict) (lookup : Lookup)
  | releasing (advance : Bool)
  | ended
  deriving DecidableEq, Repr

inductive CommitMove where
  | next
  /-- The store answers the question for a version. -/
  | answer (version : Except Fault (Option Nat))
  /-- The locks are to be given back, with or without advancing the versions. -/
  | finish (advance : Bool)

/-- A transaction that commits. -/
structure Committer where
  discipline : Discipline
  obligations : Obligations
  /-- The locks that its guard holds. -/
  held : LockPlan := []
  /-- The obligations that have been compared, each with the version that was then known or told
  for its row. -/
  compared : List (Obligation × Option Nat) := []
  stage : CommitStage := .idle

namespace Committer

/-- The locks that the commit has to take. -/
def plan (c : Committer) : LockPlan := c.obligations.plan c.discipline

/-- The obligations that the commit has to validate. -/
def duties (c : Committer) : List Obligation := c.obligations.under c.discipline

def Holds (c : Committer) (p : Place) (kind : LockKind) : Prop :=
  (⟨p.1, p.2, kind⟩ : LockRequest) ∈ c.held

/-- An obligation has been found to have seen the version that was known. -/
def Agreed (c : Committer) (o : Obligation) : Prop :=
  o.observed.isSome = true ∧ (o, o.observed) ∈ c.compared

instance (c : Committer) (o : Obligation) : Decidable (c.Agreed o) :=
  inferInstanceAs (Decidable (_ ∧ _))

instance (c : Committer) (p : Place) (kind : LockKind) : Decidable (c.Holds p kind) :=
  inferInstanceAs (Decidable (_ ∈ c.held))

/-- Begins to give all locks back. -/
def leave (c : Committer) (advance : Bool) : Committer := { c with stage := .releasing advance }

/-- One attempt for the first lock that is left. -/
def attempt (c : Committer) (id : Nat) (t : LockTable) (q : LockRequest) (rest : LockPlan)
    (waits : Nat) : Committer × LockTable :=
  match t.attempt q.relation q.key id q.kind c.discipline with
  | (.error _, t) => (c.leave false, t)
  | (.ok .granted, t) => ({ c with held := c.held ++ [q], stage := .locking rest 0 }, t)
  | (.ok .refused, t) => ({ c with stage := .withdrawing q }, t)
  | (.ok .wait, t) =>
    if waits < t.config.wait.retries then
      ({ c with stage := .locking (q :: rest) (waits + 1) }, t)
    else ({ c with stage := .withdrawing q }, t)

/-- Compares the version that an obligation saw with the current one, and goes on to the next. -/
def compare (c : Committer) (o : Obligation) (observed : Nat) (rest : List Obligation)
    (found : List Conflict) (current : Option Nat) : Committer :=
  { c with
    compared := (o, current) :: c.compared
    stage := .validating rest (found ++ LockTable.staleness o observed current) .unasked }

/-- Looks the version of a row up; `otherwise` tells how to go on if none is known. -/
def look (c : Committer) (t : LockTable) (o : Obligation) (observed : Nat)
    (rest : List Obligation) (found : List Conflict) (otherwise : Committer) : Committer :=
  match t.version? o.relation o.key with
  | .ok (some v) => c.compare o observed rest found (some v)
  | .ok none => otherwise
  | .error _ => c.leave false

/-- Hears what the store answers. -/
def hear (c : Committer) (o : Obligation) (observed : Nat) (rest : List Obligation)
    (found : List Conflict) : Except Fault (Option Nat) → Committer
  | .ok (some v) => { c with stage := .validating (o :: rest) found (.told v) }
  | .ok none => c.compare o observed rest found none
  | .error _ => c.leave false

/-- A move in the validation of an obligation. -/
def check (c : Committer) (t : LockTable) (o : Obligation) (rest : List Obligation)
    (found : List Conflict) (lookup : Lookup) (move : CommitMove) : Committer × LockTable :=
  match o.observed, lookup, move with
  | none, _, .next => ({ c with stage := .validating rest found .unasked }, t)
  | some v, .unasked, .next =>
    (c.look t o v rest found { c with stage := .validating (o :: rest) found .asking }, t)
  | some v, .asking, .answer version => (c.hear o v rest found version, t)
  | some _, .told w, .next =>
    ({ c with stage := .validating (o :: rest) found .learned },
      (t.observeVersion o.relation o.key w).2)
  | some v, .learned, .next => (c.look t o v rest found (c.compare o v rest found none), t)
  | _, _, _ => (c, t)

/-- Gives one hold back. -/
def giveBack (c : Committer) (t : LockTable) (advance : Bool) : Committer × LockTable :=
  match c.held with
  | [] => ({ c with stage := .ended }, t)
  | q :: rest => ({ c with held := rest }, (t.release q.relation q.key q.kind advance).2)

/-- The move of a commit. A move that does not fit its stage does nothing. -/
def step (c : Committer) (id : Nat) (t : LockTable) (move : CommitMove) : Committer × LockTable :=
  match c.stage, move with
  | .idle, .next => ({ c with stage := .locking c.plan 0 }, t)
  | .locking [] _, .next => ({ c with stage := .validating c.duties [] .unasked }, t)
  | .locking (q :: rest) waits, .next => c.attempt id t q rest waits
  | .withdrawing q, .next => (c.leave false, (t.withdraw q.relation q.key id).2)
  | .validating .., .finish advance => (c.leave advance, t)
  | .validating [] found _, .next => (if found = [] then c else c.leave false, t)
  | .validating (o :: rest) found lookup, move => c.check t o rest found lookup move
  | .releasing advance, .next => c.giveBack t advance
  | _, _ => (c, t)

end Committer

/-- Commits over one lock table, by the numbers of their transactions. -/
structure Race where
  table : LockTable
  parties : Nat → Committer

namespace Race

/-- No commit has begun. -/
def start (t : LockTable) (discipline : Nat → Discipline) (obligations : Nat → Obligations) :
    Race where
  table := t
  parties id := { discipline := discipline id, obligations := obligations id }

/-- One of the commits moves. -/
def take (r : Race) (id : Nat) (move : CommitMove) : Race where
  table := ((r.parties id).step id r.table move).2
  parties := Function.update r.parties id ((r.parties id).step id r.table move).1

/-- The race after some moves. -/
def run (r : Race) (moves : List (Nat × CommitMove)) : Race :=
  moves.foldl (fun r m => r.take m.1 m.2) r

theorem run_append (r : Race) (before after : List (Nat × CommitMove)) :
    r.run (before ++ after) = (r.run before).run after :=
  List.foldl_append

end Race

end LiveIsolation
