import LiveIsolation.Engine.Basic

/-!
# The boundary

When its transaction has ended, a worker passes the switch boundary: it enters, is stopped
there if other workers are awaited, and leaves. A worker that is told a protocol on leaving
asks the store for its level and takes the protocol over if the store agrees. The call has
then ended; the first fault on the way is its result.
-/

namespace LiveIsolation

namespace Fault

/-- The first fault of two results. -/
def first : Except Fault Unit → Except Fault Unit → Except Fault Unit
  | .ok (), r => r
  | .error e, _ => .error e

@[simp] theorem first_ok (r : Except Fault Unit) : first (.ok ()) r = r := rfl

@[simp] theorem first_error (f : Fault) (r : Except Fault Unit) :
    first (.error f) r = .error f := rfl

end Fault

namespace Engine

/-- A call of a worker ends, with the fault of its boundary unless it had one before. -/
def endCall (e : Engine) (w : Worker) (call : EndCall) (result boundary : Except Fault Unit) :
    List EngineEvent × Engine :=
  ([.ended call w.id (Fault.first result boundary)], e.put { w with blocked := none })

/-- A worker leaves its boundary. -/
def leave (e : Engine) (w : Worker) (call : EndCall) (result : Except Fault Unit) :
    List EngineEvent × Engine :=
  match e.barrier.leave w.id with
  | .error f => e.endCall w call result (.error f)
  | .ok (none, barrier) => { e with barrier }.endCall w call result (.ok ())
  | .ok (some next, barrier) =>
    let e := { e with barrier }
    match w.link.setLevel e.store next.level with
    | .error f => e.endCall w call result (.error f)
    | .ok store => { e with store }.endCall { w with protocol := next } call result (.ok ())

/-- A worker whose transaction has ended with a result comes to its boundary. -/
def passBoundary (e : Engine) (w : Worker) (call : EndCall) (result : Except Fault Unit) :
    List EngineEvent × Engine :=
  match e.barrier.enter w.id with
  | .error f => e.endCall w call result (.error f)
  | .ok (none, barrier) =>
    ([], { e with barrier }.put { w with blocked := some (.atBoundary call result) })
  | .ok (some _, barrier) => { e with barrier }.leave w call result

/-- A worker that was stopped at its boundary goes on. -/
def resume (e : Engine) (id : Nat) : List EngineEvent × Engine :=
  match e.worker? id with
  | none => ([], e)
  | some w =>
    match w.blocked with
    | some (.atBoundary call result) => e.leave w call result
    | _ => ([], e)

/-- Lets stopped workers go on, one after another. -/
def resumeAll (e : Engine) : List Nat → List EngineEvent × Engine
  | [] => ([], e)
  | id :: rest =>
    let (events, e) := e.resume id
    let (more, e) := e.resumeAll rest
    (events ++ more, e)

/-- Lets the switch under way go on as far as it can. -/
def advance (e : Engine) : List EngineEvent × Engine :=
  let (report, barrier) := e.barrier.advance
  (report.toList.map .switched, { e with barrier })

/-- Lets the switch under way and all workers that it stopped go on as far as they can. -/
def proceed (e : Engine) : List EngineEvent × Engine :=
  let (first, e) := e.advance
  let (stopped, barrier) := e.barrier.resume
  let (second, e) := { e with barrier }.resumeAll stopped
  let (third, e) := e.advance
  (first ++ second ++ third, e)

/-- Lets up to `n` requests for a switch begin, and everything else go on. -/
def settleWithin (n : Nat) (e : Engine) : List EngineEvent × Engine :=
  let (events, e) := e.proceed
  match n with
  | 0 => (events, e)
  | n + 1 =>
    match e.barrier.begin? with
    | none => (events, e)
    | some (report, barrier) =>
      let (more, e) := settleWithin n { e with barrier }
      (events ++ report.toList.map .switched ++ more, e)

/-- Lets everything go on until it waits for a call. -/
def settle (e : Engine) : List EngineEvent × Engine := e.settleWithin e.barrier.queue.length

/-- Asks for a switch. -/
def requestSwitch (e : Engine) (target : Protocol) : Engine :=
  { e with barrier := e.barrier.request target }

end Engine

end LiveIsolation
