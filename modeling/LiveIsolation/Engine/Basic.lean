import LiveIsolation.Barrier
import LiveIsolation.Counters
import LiveIsolation.Engine.Config
import LiveIsolation.Engine.Worker
import LiveIsolation.Workload

/-!
# Engines

An engine runs an analysed workload on a store. Its workers share the lock table, the switch
barrier and the counters. Transactions are numbered in the order in which they begin.
-/

namespace LiveIsolation

structure Engine where
  workload : Workload
  config : EngineConfig
  keys : KeyRule
  locks : LockTable
  barrier : Barrier
  counters : Counters := {}
  nextTransaction : Nat := 1
  store : Store
  /-- The connected workers in order. -/
  workers : List (Nat × Worker) := []

/-- The end of a call that can be held up. -/
inductive EngineEvent where
  | ended (call : EndCall) (worker : Nat) (result : Except Fault Unit)
  | switched (report : SwitchReport)

namespace Engine

/-- An engine without workers. The configuration is checked first. -/
def create (workload : Workload) (config : EngineConfig) (keys : KeyRule) :
    Except Fault Engine := do
  config.validate
  let protocol ← config.protocol
  let locks ← LockTable.create workload.relations config.lockTable
  return { workload, config, keys, locks, barrier := .ofProtocol protocol, store := { keys } }

def worker? (e : Engine) (id : Nat) : Option Worker := e.workers.lookup id

/-- Sets a worker. -/
def put (e : Engine) (w : Worker) : Engine :=
  { e with
    workers := Ordered.insertWith (fun a b => decide (a < b)) (fun _ new => new) w.id w e.workers }

@[simp] theorem worker?_put (e : Engine) (w : Worker) (id : Nat) :
    (e.put w).worker? id = if id = w.id then some w else e.worker? id := by
  simp [worker?, put, Ordered.lookup_insertWith_new]

/-- A worker that is not connected has been closed. -/
def withWorker {α : Type} (e : Engine) (id : Nat)
    (f : Worker → Except Fault α × Engine) : Except Fault α × Engine :=
  match e.worker? id with
  | some w => f w
  | none => (.error (.workerClosed id), e)

/-- Connects a worker over a new link, which can be told to fail calls or given a gate, and
answers the number of its connection. A worker that cannot be connected leaves the barrier,
but its connection stays numbered. -/
def connect (e : Engine) (id : Nat) (failing : List StoreCall) (permits : Option Nat) :
    Except Fault Nat × Engine :=
  let (connection, store) := e.store.connect
  let e := { e with store }
  match e.barrier.register id with
  | .error f => (.error f, e)
  | .ok (protocol, barrier) =>
    let link : Link := { connection, failing, permits }
    match link.setLevel e.store protocol.level with
    | .error f => (.error f, { e with barrier := barrier.deregister id })
    | .ok store =>
      (.ok connection.id, { e with barrier, store }.put { id, link, protocol })

/-- The transaction of a worker has ended. -/
def finish (e : Engine) (w : Worker) (committed : Bool) : Engine × Worker :=
  ({ e with counters := e.counters.finish committed }, { w with current := none })

/-- The transaction of a worker is given up; whether the store rolls it back is not asked. -/
def abandon (e : Engine) (w : Worker) : Engine × Worker :=
  e.finish { w with link := w.link.rollback.2 } false

/-- Closes a worker: rolls an open transaction back and leaves the barrier. -/
def close (e : Engine) (id : Nat) : Except Fault Unit × Engine :=
  e.withWorker id fun w =>
    let (result, e) : Except Fault Unit × Engine :=
      match w.current with
      | none => (.ok (), e)
      | some _ => (w.link.rollback.1, (e.finish w false).1)
    (result, { e with
      barrier := e.barrier.deregister id
      workers := e.workers.filter (·.1 != id) })

end Engine

end LiveIsolation
