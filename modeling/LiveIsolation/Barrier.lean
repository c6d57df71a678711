import LiveIsolation.Fault
import LiveIsolation.Ordered

/-!
# The switch barrier

All workers of an engine change to another protocol together, while transactions go on. A
worker takes part at its boundary, when its transaction has ended. A switch first waits until
every worker is ready; a worker that comes to its boundary in this phase becomes ready and
stops there. Then it waits until every worker has finished; a worker that leaves its boundary
in this phase finishes and is told the next protocol. Workers that join during a switch start
on the next protocol and take no part.

Requests for a switch wait in a queue. The first one begins (`Barrier.begin?`) when no switch
is under way, and each step of a switch (`Barrier.advance?`) is taken as soon as no worker
holds it up.
-/

namespace LiveIsolation

inductive SwitchPhase where
  | stable
  | awaitingReady
  | awaitingFinished
  deriving DecidableEq, Repr, Inhabited

/-- The name of the phase in reports. -/
def SwitchPhase.name : SwitchPhase → String
  | .stable => "STABLE"
  | .awaitingReady => "AWAITING_WORKERS_READY"
  | .awaitingFinished => "AWAITING_WORKERS_FINISHED"

/-- How far a worker has come in a switch. -/
structure SwitchMarks where
  ready : Bool := false
  finished : Bool := false
  deriving DecidableEq, Repr, Inhabited

/-- The end of a request. A request for the protocol that is in force switches nothing. -/
structure SwitchReport where
  source : Protocol
  target : Protocol
  workers : Nat
  switched : Bool
  deriving DecidableEq, Repr

/-- The protocol that commits followed during the switch. -/
def SwitchReport.safe (r : SwitchReport) : Protocol := r.source.safeTransition r.target

structure Barrier where
  phase : SwitchPhase := .stable
  current : Protocol
  /-- The protocol that workers change to; outside a switch the current one. -/
  next : Protocol
  /-- The registered workers in order. -/
  workers : List (Nat × SwitchMarks) := []
  /-- The workers that are stopped at their boundary. -/
  stopped : List Nat := []
  /-- The requests that have not begun. -/
  queue : List Protocol := []
  switches : Nat := 0
  noopRequests : Nat := 0
  deriving DecidableEq, Repr

/-- Something that comes to its end while nobody else acts. -/
inductive SwitchEvent where
  | switched (report : SwitchReport)
  | entered (worker : Nat) (required : Protocol)
  deriving DecidableEq, Repr

namespace Barrier

/-- A barrier without workers. -/
def ofProtocol (p : Protocol) : Barrier := { current := p, next := p }

def marks? (b : Barrier) (worker : Nat) : Option SwitchMarks := b.workers.lookup worker

/-- The protocol that commits follow now. -/
def required (b : Barrier) : Protocol :=
  match b.phase with
  | .stable => b.current
  | _ => b.current.safeTransition b.next

def readyCount (b : Barrier) : Nat := b.workers.countP (·.2.ready)

def finishedCount (b : Barrier) : Nat := b.workers.countP (·.2.finished)

def allReady (b : Barrier) : Bool := b.workers.all (·.2.ready)

def allFinished (b : Barrier) : Bool := b.workers.all (·.2.finished)

/-- Sets the marks of a worker. -/
def mark (b : Barrier) (worker : Nat) (m : SwitchMarks) : Barrier :=
  { b with
    workers :=
      Ordered.insertWith (fun a b => decide (a < b)) (fun _ new => new) worker m b.workers }

@[simp] theorem marks?_mark (b : Barrier) (worker w : Nat) (m : SwitchMarks) :
    (b.mark worker m).marks? w = if w = worker then some m else b.marks? w := by
  simp [marks?, mark, Ordered.lookup_insertWith_new]

/-- Clears the marks of all workers. -/
def clearMarks (b : Barrier) : Barrier :=
  { b with workers := b.workers.map fun w => (w.1, {}) }

/-- A worker joins and is told the protocol that it starts with. -/
def register (b : Barrier) (worker : Nat) : Except Fault (Protocol × Barrier) :=
  if (b.marks? worker).isSome then .error (.workerExists worker)
  else
    match b.phase with
    | .stable => .ok (b.current, b.mark worker {})
    | _ => .ok (b.next, b.mark worker { ready := true, finished := true })

/-- A worker leaves for good; a switch no longer waits for it. -/
def deregister (b : Barrier) (worker : Nat) : Barrier :=
  { b with workers := b.workers.filter (·.1 != worker) }

/-- A worker comes to its boundary. It is told the protocol that commits follow, unless it has
to stop. -/
def enter (b : Barrier) (worker : Nat) : Except Fault (Option Protocol × Barrier) :=
  match b.marks? worker with
  | none => .error (.workerMissing worker)
  | some m =>
    if b.phase = .awaitingReady ∧ m.ready = false then
      .ok (none, { b.mark worker { m with ready := true } with
        stopped := b.stopped ++ [worker] })
    else .ok (some b.required, b)

/-- A worker leaves its boundary. It is told a protocol if it has to change. -/
def leave (b : Barrier) (worker : Nat) : Except Fault (Option Protocol × Barrier) :=
  match b.marks? worker with
  | none => .error (.workerMissing worker)
  | some m =>
    if b.phase = .awaitingFinished ∧ m.finished = false then
      .ok (some b.next, b.mark worker { m with finished := true })
    else .ok (none, b)

/-- A request joins the queue. -/
def request (b : Barrier) (target : Protocol) : Barrier :=
  { b with queue := b.queue ++ [target] }

/-- The number of requests that have not ended. -/
def openRequests (b : Barrier) : Nat :=
  b.queue.length + if b.phase = .stable then 0 else 1

/-- The first request begins, if no switch is under way. One for the current protocol ends at
once. -/
def begin? (b : Barrier) : Option (Option SwitchReport × Barrier) :=
  match b.phase, b.queue with
  | .stable, target :: queue =>
    if b.current = target then
      some (some ⟨b.current, target, b.workers.length, false⟩,
        { b with queue, noopRequests := b.noopRequests + 1 })
    else some (none, { b.clearMarks with phase := .awaitingReady, next := target, queue })
  | _, _ => none

/-- A switch takes a step that no worker holds up. -/
def advance? (b : Barrier) : Option (Option SwitchReport × Barrier) :=
  match b.phase with
  | .awaitingReady =>
    if b.allReady then some (none, { b with phase := .awaitingFinished }) else none
  | .awaitingFinished =>
    if b.allFinished then
      some (some ⟨b.current, b.next, b.workers.length, true⟩,
        { b.clearMarks with phase := .stable, current := b.next, switches := b.switches + 1 })
    else none
  | .stable => none

/-- The switch under way goes on as far as it can. -/
def advance (b : Barrier) : Option SwitchReport × Barrier :=
  match b.advance? with
  | none => (none, b)
  | some (some report, b) => (some report, b)
  | some (none, b) =>
    match b.advance? with
    | none => (none, b)
    | some (report, b) => (report, b)

/-- The stopped workers go on, unless workers are still awaited. -/
def resume (b : Barrier) : List Nat × Barrier :=
  if b.phase = .awaitingReady then ([], b) else (b.stopped, { b with stopped := [] })

/-- Lets up to `n` requests begin, and the barrier go on as far as it can. -/
def settleWithin (n : Nat) (b : Barrier) : List SwitchEvent × Barrier :=
  let (report, b) := b.advance
  let (resumed, b) := b.resume
  let events := report.toList.map .switched ++ resumed.map (.entered · b.required)
  match n with
  | 0 => (events, b)
  | n + 1 =>
    match b.begin? with
    | none => (events, b)
    | some (report, b) =>
      let (more, b) := settleWithin n b
      (events ++ report.toList.map .switched ++ more, b)

/-- Lets the barrier go on until it waits for a worker or has nothing to do. -/
def settle (b : Barrier) : List SwitchEvent × Barrier := settleWithin b.queue.length b

theorem advance?_eq_none_of_stable {b : Barrier} (h : b.phase = .stable) :
    b.advance? = none := by
  simp [advance?, h]

end Barrier

end LiveIsolation
