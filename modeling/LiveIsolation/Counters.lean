/-!
# Counters

An engine counts its transactions: how many are open, how they ended, and how often
validation turned one away, by the kind of conflict. The counters are words of 64 bits, and each
moves by one at a time, or by the conflicts of one commit; an engine would have to begin `2 ^ 64`
transactions to fill one.
-/

namespace LiveIsolation

structure Counters where
  active : Nat := 0
  started : Nat := 0
  committed : Nat := 0
  aborted : Nat := 0
  validationConflicts : Nat := 0
  lockConflicts : Nat := 0
  versionMismatches : Nat := 0
  deriving DecidableEq, Repr

namespace Counters

def start (c : Counters) : Counters :=
  { c with active := c.active + 1, started := c.started + 1 }

/-- A transaction ends; there are never fewer than none open. -/
def finish (c : Counters) (committed : Bool) : Counters :=
  if committed then { c with active := c.active - 1, committed := c.committed + 1 }
  else { c with active := c.active - 1, aborted := c.aborted + 1 }

/-- Validation turned a transaction away. -/
def conflict (c : Counters) (locks versions : Nat) : Counters :=
  { c with
    validationConflicts := c.validationConflicts + 1
    lockConflicts := c.lockConflicts + locks
    versionMismatches := c.versionMismatches + versions }

def completed (c : Counters) : Nat := c.committed + c.aborted

/-- A count as a share of the transactions started; zero before the first. -/
def share (c : Counters) (n : Nat) : Float :=
  if c.started = 0 then 0 else n.toFloat / c.started.toFloat

def commitRate (c : Counters) : Float := c.share c.committed

def abortRate (c : Counters) : Float := c.share c.aborted

theorem completed_finish (c : Counters) (committed : Bool) :
    (c.finish committed).completed = c.completed + 1 := by
  cases committed <;> simp [finish, completed] <;> omega

end Counters

end LiveIsolation
