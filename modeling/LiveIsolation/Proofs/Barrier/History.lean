import LiveIsolation.Barrier
import LiveIsolation.Proofs.Ordered
import Mathlib.Logic.Relation

/-!
# Histories of the barrier

Workers, requesters and the switch itself take their steps at the barrier in any order. A
history is the list of records that the steps have left, the latest first. It tells what the
barrier's own state forgets: who has come to its boundary since the last request began, and
what each worker was told since then. All that happens at a barrier while nobody calls
(`Barrier.settle`) is a course of such steps (`Barrier.reaches_settle`).

## Implementation notes

A step is total. A call that the barrier refuses, and a step that cannot be taken, leave both
the barrier and the history alone. A worker that is stopped at its boundary goes on in a step
of its own, which is there only when workers are no longer awaited. The calls of a stopped
worker are not excluded, since nothing that is proved here depends on that.
-/

namespace LiveIsolation

/-- A step at the barrier: a call of a worker, a stopped worker that goes on, or what happens
to the requests. -/
inductive BarrierStep where
  | register (worker : Nat)
  | deregister (worker : Nat)
  | enter (worker : Nat)
  | goOn (worker : Nat)
  | leave (worker : Nat)
  | request (target : Protocol)
  | beginRequest
  | advance
  deriving DecidableEq, Repr

inductive BarrierRecord where
  /-- A worker has joined and was told the protocol that it starts with. -/
  | registered (worker : Nat) (start : Protocol)
  /-- A worker has come to its boundary. -/
  | entered (worker : Nat)
  /-- A worker has left its boundary and may have been told a protocol. -/
  | left (worker : Nat) (told : Option Protocol)
  /-- A request has begun that changes the protocol. -/
  | began (source target : Protocol)
  deriving DecidableEq, Repr

namespace BarrierRecord

/-- The request that begins with a record. -/
def request? : BarrierRecord → Option (Protocol × Protocol)
  | .began source target => some (source, target)
  | _ => none

/-- The protocol that a worker starts with, if the record is of its joining. -/
def startOf? (worker : Nat) : BarrierRecord → Option Protocol
  | .registered w start => if w = worker then some start else none
  | _ => none

/-- The protocol that a worker is told as it leaves its boundary. -/
def toldTo? (worker : Nat) : BarrierRecord → Option Protocol
  | .left w told => if w = worker then told else none
  | _ => none

end BarrierRecord

/-- The records of a barrier, the latest first. -/
abbrev BarrierHistory := List BarrierRecord

namespace BarrierHistory

variable (past : BarrierHistory) (worker : Nat)

/-- The request that began last, with the protocol that was then in force. -/
def lastRequest? : Option (Protocol × Protocol) := past.findSome? (·.request?)

/-- The records since the last request began. -/
def sinceRequest : BarrierHistory := past.takeWhile (·.request?.isNone)

/-- The protocol that a worker was told when it joined last. -/
def start? : Option Protocol := past.findSome? (·.startOf? worker)

/-- The records since a worker joined. -/
def sinceJoined : BarrierHistory := past.takeWhile fun r => (r.startOf? worker).isNone

/-- The protocols that a worker was told as it left its boundary, the latest first. -/
def told : List Protocol := past.filterMap (·.toldTo? worker)

theorem lastRequest?_cons (r : BarrierRecord) :
    lastRequest? (r :: past) = r.request?.or (lastRequest? past) := by
  simp only [lastRequest?]
  rw [List.findSome?_cons]
  cases r.request? <;> rfl

theorem sinceRequest_cons (r : BarrierRecord) :
    sinceRequest (r :: past) = if r.request?.isNone then r :: sinceRequest past else [] :=
  List.takeWhile_cons

theorem start?_cons (r : BarrierRecord) :
    start? (r :: past) worker = (r.startOf? worker).or (start? past worker) := by
  simp only [start?]
  rw [List.findSome?_cons]
  cases r.startOf? worker <;> rfl

theorem sinceJoined_cons (r : BarrierRecord) :
    sinceJoined (r :: past) worker =
      if (r.startOf? worker).isNone then r :: sinceJoined past worker else [] :=
  List.takeWhile_cons

theorem told_cons (r : BarrierRecord) :
    told (r :: past) worker = (r.toldTo? worker).toList ++ told past worker := by
  simp only [told]
  rw [List.filterMap_cons]
  cases r.toldTo? worker <;> rfl

@[simp] theorem told_nil : told [] worker = [] := rfl

@[simp] theorem start?_nil : start? [] worker = none := rfl

end BarrierHistory

namespace Barrier

theorem marks?_deregister (b : Barrier) (worker w : Nat) :
    (b.deregister worker).marks? w = if w = worker then none else b.marks? w := by
  simp only [marks?, deregister]
  rw [Ordered.lookup_filter_key (· != worker)]
  by_cases h : w = worker <;> simp [h]

theorem marks?_clearMarks (b : Barrier) (w : Nat) :
    b.clearMarks.marks? w = (b.marks? w).map fun _ => {} :=
  Ordered.lookup_map_value (fun _ => ({} : SwitchMarks)) w b.workers

/-- Takes a step, which may leave a record. -/
def take (b : Barrier) : BarrierStep → Option BarrierRecord × Barrier
  | .register w =>
    match b.register w with
    | .ok (start, b) => (some (.registered w start), b)
    | .error _ => (none, b)
  | .deregister w => (none, b.deregister w)
  | .enter w =>
    match b.enter w with
    | .ok (_, b) => (some (.entered w), b)
    | .error _ => (none, b)
  | .goOn w =>
    if w ∈ b.stopped ∧ b.phase ≠ .awaitingReady then
      (none, { b with stopped := b.stopped.erase w })
    else (none, b)
  | .leave w =>
    match b.leave w with
    | .ok (told, b) => (some (.left w told), b)
    | .error _ => (none, b)
  | .request target => (none, b.request target)
  | .beginRequest =>
    match b.begin? with
    | some (none, c) => (some (.began b.current c.next), c)
    | some (some _, c) => (none, c)
    | none => (none, b)
  | .advance =>
    match b.advance? with
    | some (_, b) => (none, b)
    | none => (none, b)

/-- One barrier becomes another by steps of whatever kind. -/
def Reaches : Barrier → Barrier → Prop :=
  Relation.ReflTransGen fun b c => ∃ step, (b.take step).2 = c

theorem Reaches.ofStep {b c : Barrier} (step : BarrierStep) (h : (b.take step).2 = c) :
    b.Reaches c :=
  .single ⟨step, h⟩

theorem reaches_advance? {b c : Barrier} {report : Option SwitchReport}
    (h : b.advance? = some (report, c)) : b.Reaches c :=
  .ofStep .advance (by simp [take, h])

theorem reaches_begin? {b c : Barrier} {report : Option SwitchReport}
    (h : b.begin? = some (report, c)) : b.Reaches c := by
  cases report with
  | none => exact .ofStep .beginRequest (by simp [take, h])
  | some report => exact .ofStep .beginRequest (by simp [take, h])

theorem reaches_advance (b : Barrier) : b.Reaches b.advance.2 := by
  simp only [advance]
  split
  · exact .refl
  · rename_i h
    exact reaches_advance? h
  · rename_i c h
    split
    · exact reaches_advance? h
    · rename_i h'
      exact (reaches_advance? h).trans (reaches_advance? h')

/-- The stopped workers go on one after another. -/
theorem reaches_resume (b : Barrier) : b.Reaches b.resume.2 := by
  by_cases hp : b.phase = .awaitingReady
  · simp only [resume, if_pos hp]
    exact .refl
  · have hgo : ∀ stopped, Reaches { b with stopped } { b with stopped := [] } := by
      intro stopped
      induction stopped with
      | nil => exact .refl
      | cons w rest ih =>
          have hfirst : Reaches { b with stopped := w :: rest } { b with stopped := rest } :=
            .ofStep (.goOn w) (by simp [take, hp])
          exact hfirst.trans ih
    simp only [resume, if_neg hp]
    exact hgo b.stopped

/-- What happens at a barrier while nobody else acts is a course of steps. -/
theorem reaches_settleWithin (n : Nat) (b : Barrier) : b.Reaches (b.settleWithin n).2 := by
  induction n generalizing b with
  | zero => exact b.reaches_advance.trans (reaches_resume _)
  | succ n ih =>
      unfold settleWithin
      have hrest : b.Reaches b.advance.2.resume.2 := b.reaches_advance.trans (reaches_resume _)
      cases hb : b.advance.2.resume.2.begin? with
      | none =>
          simp only [hb]
          exact hrest
      | some r =>
          simp only [hb]
          exact (hrest.trans (reaches_begin? hb)).trans (ih r.2)

theorem reaches_settle (b : Barrier) : b.Reaches b.settle.2 :=
  b.reaches_settleWithin b.queue.length

end Barrier

/-- A barrier with its history. -/
structure BarrierCourse where
  past : BarrierHistory := []
  barrier : Barrier
  deriving DecidableEq, Repr

namespace BarrierCourse

def take (c : BarrierCourse) (step : BarrierStep) : BarrierCourse :=
  let (record?, barrier) := c.barrier.take step
  { past := record?.toList ++ c.past, barrier }

/-- The course of a barrier from its creation through some steps. -/
def ofSteps (initial : Protocol) (steps : List BarrierStep) : BarrierCourse :=
  steps.foldl take { barrier := .ofProtocol initial }

end BarrierCourse

end LiveIsolation
