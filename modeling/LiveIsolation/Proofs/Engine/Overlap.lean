import LiveIsolation.Proofs.Engine.Seats
import LiveIsolation.Proofs.LockTable.CommitCall

/-!
# Engines with commits under way

Calls of different workers overlap. A commit visits one lock at a time, asks the store for versions
and to commit, gives its locks back one after another and then makes the versions of the written
rows known one by one; between any two of these moves others may move (`Overlap`). A worker enters
its boundary and leaves it in different moves too.

## Implementation notes

Statements, rollbacks and what connects or closes a worker ask the store once and never touch the
lock table, so each of them is a single move. A worker whose commit is under way can make no other
call. The locks of all commits under way are those of a race (`Overlap.race`), by worker.
-/

namespace LiveIsolation

/-- An engine with the commits that are under way, by worker. -/
structure Overlap where
  engine : Engine
  calls : Nat → Option CommitCall

inductive OverlapMove where
  /-- A call of a worker, or something that happens to the engine. A commit only begins. -/
  | action (a : EngineAction)
  /-- The commit of a worker makes its next move. -/
  | proceed (worker : Nat)
  /-- A worker that is not stopped at its boundary leaves it. -/
  | leave (worker : Nat)
  deriving DecidableEq, Repr

namespace CommitCall

/-- The commit of an open transaction under a discipline. Without one there is nothing to lock and
to validate. -/
def begin (t : OpenTransaction) : Option Discipline → CommitCall
  | some d => { committer := { discipline := d, obligations := t.obligations } }
  | none =>
    { committer :=
        { discipline := .snapshot, obligations := {}, stage := .validating [] [] .unasked } }

end CommitCall

namespace Engine

/-- A worker whose transaction has ended enters its boundary. -/
def enterBoundary (e : Engine) (w : Worker) (call : EndCall) (result : Except Fault Unit) :
    List EngineEvent × Engine :=
  match e.barrier.enter w.id with
  | .error f => e.endCall w call result (.error f)
  | .ok (_, barrier) =>
    ([], { e with barrier }.put { w with blocked := some (.atBoundary call result) })

end Engine

namespace Overlap

/-- No commit is under way. -/
def start (e : Engine) : Overlap := ⟨e, fun _ => none⟩

/-- The worker whose call an action is, unless it connects a worker. -/
def caller? : EngineAction → Option Nat
  | .execute id .. | .finish id _ | .close id => some id
  | _ => none

/-- The worker whose call an action is has another call in progress. -/
def occupied (o : Overlap) (a : EngineAction) : Bool :=
  (caller? a).any fun id => (o.calls id).isSome || o.engine.busy id

/-- The engine and one of the commits change. -/
def set (o : Overlap) (e : Engine) (id : Nat) (c : Option CommitCall) : Overlap :=
  ⟨e, Function.update o.calls id c⟩

section Commit
variable (o : Overlap) (w : Worker) (c : CommitCall)

/-- The commit of a worker ends, and with it the transaction. -/
def conclude (e : Engine) (committed : Bool) (result : Except Fault Unit) :
    List EngineEvent × Overlap :=
  let (e, w) := if committed then e.finish w true else e.abandon w
  let (events, e) := e.enterBoundary w .commit result
  (events, o.set e w.id none)

/-- A transaction is given up after its locks have been given back. Conflicts are counted. -/
def giveUp : Refusal → List EngineEvent × Overlap
  | .fault f => o.conclude w o.engine false (.error f)
  | .conflicts found =>
    match c.returned with
    | .error f => o.conclude w o.engine false (.error f)
    | .ok () =>
      let (f, e) := o.engine.reject found
      o.conclude w e false (.error f)

/-- A commit visits a lock, or hears of a version. -/
def visit : Overlap :=
  let fetch : VersionSource := fun relation key => w.link.fetch o.engine.store (relation, key)
  let (c, locks) := c.visit w.transaction o.engine.locks (c.committer.nextMove fetch)
  o.set { o.engine with locks } w.id (some c)

/-- The store is asked to commit a transaction that may commit. -/
def askStore (t : OpenTransaction) : Overlap :=
  match w.link.commit o.engine.store with
  | .error f =>
    o.set o.engine w.id
      (some { c with committer := c.committer.leave false, refusal := some (.fault f) })
  | .ok (link, store) =>
    o.set ({ o.engine with store }.put { w with link }) w.id
      (some { c with committer := c.committer.leave true, stored := some t.written })

/-- The version of a written row is made known. A fault ends this for all rows. -/
def makeKnown (row : Place × Nat) (rest : List (Place × Nat)) : Overlap :=
  let (result, locks) := o.engine.locks.updateVersion row.1.1 row.1.2 row.2
  let rest := match result with
    | .ok () => rest
    | .error _ => []
  o.set { o.engine with locks } w.id
    (some { c with stored := some rest, returned := Fault.first c.returned result })

/-- The next move of the commit of an open transaction. -/
def advance (t : OpenTransaction) : List EngineEvent × Overlap :=
  match c.committer.stage, c.stored, c.refusal with
  | .ended, some [], _ => o.conclude w o.engine true c.returned
  | .ended, some (row :: rest), _ => ([], o.makeKnown w c row rest)
  | .ended, none, some r => o.giveUp w c r
  | .ended, none, none => ([], o)
  | .validating [] [] _, _, _ => ([], o.askStore w c t)
  | _, _, _ => ([], o.visit w c)

end Commit

/-- The commit of a worker makes its next move. -/
def proceed (o : Overlap) (id : Nat) : List EngineEvent × Overlap :=
  match o.engine.worker? id, o.calls id with
  | some w, some c =>
    match w.current with
    | some t => o.advance w c t
    | none => ([], o)
  | _, _ => ([], o)

/-- A worker that is not held up begins a call that ends its transaction. -/
def finish (o : Overlap) (w : Worker) (call : EndCall) : List EngineEvent × Overlap :=
  match w.current, call with
  | some t, .commit =>
    ([], o.set o.engine w.id (some (.begin t o.engine.barrier.required.discipline?)))
  | some _, .rollback =>
    let (result, link) := w.link.rollback
    let (e, w) := o.engine.finish { w with link } false
    let (events, e) := e.enterBoundary w .rollback result
    (events, { o with engine := e })
  | none, call =>
    let (events, e) := o.engine.enterBoundary w call (.ok ())
    (events, { o with engine := e })

/-- Makes a move. -/
def take (o : Overlap) : OverlapMove → List EngineEvent × Overlap
  | .action a =>
    if o.occupied a then ([], o)
    else
      match a with
      | .finish id call =>
        match o.engine.worker? id with
        | none => ([.ended call id (.error (.workerClosed id))], o)
        | some w => o.finish w call
      | a => ((o.engine.take a).1, { o with engine := (o.engine.take a).2 })
  | .proceed id => o.proceed id
  | .leave id =>
    if id ∈ o.engine.barrier.stopped then ([], o)
    else ((o.engine.resume id).1, { o with engine := (o.engine.resume id).2 })

/-- What has come of some moves. -/
def run (o : Overlap) (moves : List OverlapMove) : Overlap :=
  moves.foldl (fun o m => (o.take m).2) o

/-- The calls that end in some moves, in order. -/
def ends (o : Overlap) : List OverlapMove → List EngineEvent
  | [] => []
  | m :: rest => (o.take m).1 ++ (o.take m).2.ends rest

/-- No call is in progress. -/
def AtRest (o : Overlap) : Prop :=
  (∀ id, o.calls id = none) ∧ ∀ id w, o.engine.worker? id = some w → w.blocked = none

/-- The locks of the commits under way. -/
def race (o : Overlap) : Race where
  table := o.engine.locks
  parties id := (o.calls id).elim { discipline := .snapshot, obligations := {} } (·.committer)

end Overlap

namespace Engine

variable {e e' e₁ : Engine} {w : Worker} {id : Nat} {events : List EngineEvent}

/-- Neither the workers nor the locks nor the counters are touched, and the store commits
nothing. -/
structure Untouched (e e' : Engine) : Prop where
  workload : e'.workload = e.workload
  keys : e'.keys = e.keys
  storeKeys : e'.store.keys = e.store.keys
  workers : e'.workers = e.workers
  locks : e'.locks = e.locks
  counters : e'.counters = e.counters
  commits : e'.store.commits = e.store.commits

/-- The barrier may change, and the store as long as it commits nothing. -/
theorem untouched (e : Engine) (barrier : Barrier) (store : Store)
    (hkeys : store.keys = e.store.keys) (hcommits : store.commits = e.store.commits) :
    e.Untouched { e with barrier, store } :=
  ⟨rfl, rfl, hkeys, rfl, rfl, rfl, hcommits⟩

theorem Untouched.refl (e : Engine) : e.Untouched e := e.untouched e.barrier e.store rfl rfl

/-- How a worker enters its boundary. -/
theorem enterBoundary_inv (e : Engine) (w : Worker) (call : EndCall) (result : Except Fault Unit) :
    (∃ f, f.cls = .invalidState ∧
        e.enterBoundary w call result =
          ([.ended call w.id (Fault.first result (.error f))], e.put { w with blocked := none })) ∨
      ∃ barrier, e.barrier.Seats barrier ∧
        e.enterBoundary w call result =
          ([], { e with barrier }.put { w with blocked := some (.atBoundary call result) }) := by
  simp only [enterBoundary, endCall]
  split
  · rename_i f henter
    exact .inl ⟨f, Barrier.cls_of_enter henter, rfl⟩
  · rename_i required barrier henter
    exact .inr ⟨barrier, Barrier.seats_enter henter, rfl⟩

/-- What an action comes to that does not end a transaction. -/
inductive Acts (e : Engine) : EngineAction → List EngineEvent × Engine → Prop where
  | aside (a : EngineAction) (e' : Engine) (events : List EngineEvent) (h : e.Untouched e')
    (hsilent : ∀ call i result, .ended call i result ∉ events) : Acts e a (events, e')
  | joined (id : Nat) (w : Worker) (e₁ : Engine) (h : e.Untouched e₁) (hnone : e.worker? id = none)
    (hid : w.id = id) (hcurrent : w.current = none) (hblocked : w.blocked = none) :
    Acts e (.connect id) ([], e₁.put w)
  | linked (id : Nat) (calls : List StoreCall) (w : Worker) (link : Link)
    (hw : e.worker? id = some w) : Acts e (.fail id calls) ([], e.put { w with link })
  | executed (id : Nat) (name : String) (index : Nat) (args : List Value) (w : Worker)
    (hw : e.worker? id = some w) (answer : Except Fault Outcome) (e' : Engine)
    (h : Executed e w name index args answer e') :
    Acts e (.execute id name index args) ([], e')
  | closed (id : Nat) (w : Worker) (hw : e.worker? id = some w) (hfree : w.blocked = none) :
    Acts e (.close id)
      ([], e.without id (w.current.elim e.counters fun _ => e.counters.finish false))
  | left (id : Nat) (w : Worker) (hw : e.worker? id = some w) (call : EndCall)
    (result boundary : Except Fault Unit) (hblocked : w.blocked = some (.atBoundary call result))
    (e₁ e' : Engine) (h : e.Untouched e₁) (hleaving : Leaving e₁ w boundary e') :
    Acts e (.resume id) ([.ended call w.id (Fault.first result boundary)], e')

theorem acts_silent (a : EngineAction) (h : e.Untouched e') : e.Acts a ([], e') :=
  .aside a e' [] h fun _ _ _ => List.not_mem_nil

theorem not_ended_switched {report : Option SwitchReport} (call : EndCall) (i : Nat)
    (result : Except Fault Unit) :
    EngineEvent.ended call i result ∉ report.toList.map EngineEvent.switched := by
  simp

/-- A worker leaves its boundary if it is there. -/
theorem acts_resume (h : e.Untouched e₁) (id : Nat) : e.Acts (.resume id) (e₁.resume id) := by
  have hsame : ∀ i, e₁.worker? i = e.worker? i := fun i => by rw [worker?, h.workers, worker?]
  rcases e₁.resume_inv id with ⟨w, call, result, hw, hblocked, hresume⟩ | ⟨-, hresume⟩
  · obtain ⟨boundary, hevents, hleaving⟩ := leave_inv (Prod.eta (e₁.leave w call result)).symm
    have hpair : e₁.leave w call result = ([.ended call w.id (Fault.first result boundary)],
        (e₁.leave w call result).2) := by rw [← hevents]
    rw [hresume, hpair]
    exact .left id w (hsame id ▸ hw) call result boundary hblocked e₁ _ h hleaving
  · rw [hresume]
    exact .aside _ _ _ h fun _ _ _ => List.not_mem_nil

theorem Seated.acts_connect (h : e.Seated) (id : Nat) :
    e.Acts (.connect id) (e.take (.connect id)) := by
  have hconnecting := e.connecting_connect id none
  simp only [take]
  generalize (e.connect id [] none).2 = e' at hconnecting
  cases hconnecting with
  | refused f _ => exact acts_silent _ (e.untouched e.barrier _ rfl rfl)
  | denied start barrier _ => exact acts_silent _ (e.untouched _ _ rfl rfl)
  | joined start barrier levels hregister =>
      refine .joined id _ _ (e.untouched barrier _ rfl rfl) ?_ rfl rfl rfl
      cases hw : e.worker? id with
      | none => rfl
      | some w =>
          rw [Barrier.register, if_pos (h id w hw).2] at hregister
          cases hregister

theorem Seated.acts_take (h : e.Seated) (a : EngineAction) (ha : ∀ id call, a ≠ .finish id call) :
    e.Acts a (e.take a) := by
  have hself : e.Acts a ([], e) := acts_silent a (.refl e)
  cases a with
  | connect id => exact h.acts_connect id
  | finish id call => exact absurd rfl (ha id call)
  | execute id name index args =>
      simp only [take]
      split
      · exact hself
      · cases hw : e.worker? id with
        | none =>
            rw [execute_of_none hw]
            exact hself
        | some w => exact .executed id name index args w hw _ _ (execute_inv hw name index args)
  | close id =>
      simp only [take]
      split
      · exact hself
      · rename_i hidle
        rcases e.close_inv id with ⟨-, hclose⟩ | ⟨w, hw, hclose⟩
        · rw [hclose]
          exact hself
        · have hfree : w.blocked = none := by simpa [busy, hw] using hidle
          rw [hclose]
          exact .closed id w hw hfree
  | fail id calls =>
      simp only [take, fail]
      cases hw : e.worker? id with
      | none => exact hself
      | some w => exact .linked id calls w _ hw
  | request target => exact acts_silent _ (e.untouched _ e.store rfl rfl)
  | seed place value => exact acts_silent _ (e.untouched e.barrier _ rfl rfl)
  | outage on => exact acts_silent _ (e.untouched e.barrier _ rfl rfl)
  | beginRequest =>
      simp only [take]
      split
      · exact .aside _ _ _ (e.untouched _ e.store rfl rfl) not_ended_switched
      · exact hself
  | advance =>
      simp only [take]
      split
      · exact .aside _ _ _ (e.untouched _ e.store rfl rfl) not_ended_switched
      · exact hself
  | resume id =>
      simp only [take]
      split
      · exact acts_resume (e.untouched _ e.store rfl rfl) id
      · exact hself

end Engine

namespace Overlap

open Engine

variable {o o' : Overlap} {w v : Worker} {c : CommitCall} {t : OpenTransaction} {id : Nat}

/-- What a move comes to. -/
inductive Moves (o : Overlap) : List EngineEvent × Overlap → Prop where
  | rests : Moves o ([], o)
  | acts (a : EngineAction) (x : List EngineEvent × Engine) (h : o.engine.Acts a x)
    (hconcerns : o.engine.Concerns (Turn.plain (.action a)).worker? x)
    (hsteady : o.engine.Steady → x.2.Steady)
    (hcaller : ∀ id, caller? a = some id → o.calls id = none) :
    Moves o (x.1, { o with engine := x.2 })
  | absent (id : Nat) (call : EndCall) (hw : o.engine.worker? id = none) :
    Moves o ([.ended call id (.error (.workerClosed id))], o)
  | begins (w : Worker) (t : OpenTransaction) (hw : o.engine.worker? w.id = some w)
    (ht : w.current = some t) (hfree : w.blocked = none) (hcall : o.calls w.id = none) :
    Moves o ([], o.set o.engine w.id (some (.begin t o.engine.barrier.required.discipline?)))
  | rollsBack (w : Worker) (t : OpenTransaction) (hw : o.engine.worker? w.id = some w)
    (ht : w.current = some t) (hfree : w.blocked = none) (hcall : o.calls w.id = none)
    (x : List EngineEvent × Engine)
    (hx : { o.engine with counters := o.engine.counters.finish false }.enterBoundary
      { w with link := w.link.rollback.2, current := none } .rollback w.link.rollback.1 = x) :
    Moves o (x.1, { o with engine := x.2 })
  | passes (w : Worker) (call : EndCall) (hw : o.engine.worker? w.id = some w)
    (ht : w.current = none) (hfree : w.blocked = none) (hcall : o.calls w.id = none)
    (x : List EngineEvent × Engine) (hx : o.engine.enterBoundary w call (.ok ()) = x) :
    Moves o (x.1, { o with engine := x.2 })
  | proceeds (w : Worker) (t : OpenTransaction) (c : CommitCall)
    (hw : o.engine.worker? w.id = some w) (ht : w.current = some t)
    (hcall : o.calls w.id = some c) : Moves o (o.advance w c t)

theorem moves_finish (hw : o.engine.worker? w.id = some w) (hfree : w.blocked = none)
    (hcall : o.calls w.id = none) (call : EndCall) : o.Moves (o.finish w call) := by
  cases ht : w.current with
  | none =>
      simp only [finish, ht]
      exact .passes w call hw ht hfree hcall _ rfl
  | some t =>
      cases call with
      | commit =>
          simp only [finish, ht]
          exact .begins w t hw ht hfree hcall
      | rollback =>
          simp only [finish, ht]
          exact .rollsBack w t hw ht hfree hcall _ rfl

theorem moves_take (h : o.engine.Seated) (m : OverlapMove) : o.Moves (o.take m) := by
  cases m with
  | action a =>
      by_cases hbusy : o.occupied a = true
      · simp only [take, if_pos hbusy]
        exact .rests
      · have hcaller : ∀ id, caller? a = some id →
            o.calls id = none ∧ o.engine.busy id = false := by
          intro id ha
          simpa [occupied, ha] using hbusy
        by_cases ha : ∃ id call, a = .finish id call
        · obtain ⟨id, call, rfl⟩ := ha
          obtain ⟨hcall, hidle⟩ := hcaller id rfl
          simp only [take, if_neg hbusy]
          cases hw : o.engine.worker? id with
          | none => exact .absent id call hw
          | some w =>
              obtain rfl := (h id w hw).1
              refine moves_finish hw ?_ hcall call
              simpa [busy, hw] using hidle
        · have hact := h.acts_take a fun id call he => ha ⟨id, call, he⟩
          have htake : o.take (.action a) =
              ((o.engine.take a).1, { o with engine := (o.engine.take a).2 }) := by
            simp only [take, if_neg hbusy]
            split
            · exact absurd ⟨_, _, rfl⟩ ha
            · rfl
          rw [htake]
          exact .acts a _ hact (h.concerns_turn (.plain (.action a)))
            (fun hsteady => hsteady.happen (.action a)) fun id he => (hcaller id he).1
  | proceed id =>
      simp only [take, proceed]
      split
      · rename_i w c hw hcall
        obtain rfl := (h id w hw).1
        split
        · rename_i t ht
          exact .proceeds w t c hw ht hcall
        · exact .rests
      · exact .rests
  | leave id =>
      simp only [take]
      split
      · exact .rests
      · exact .acts (.resume id) _ (acts_resume (.refl _) id) (h.concerns_resume id)
          (fun hsteady => hsteady.resume id) fun _ hcaller => by cases hcaller

/-- The workers of an engine stand in order, each under its own number, and a commit that is under
way is that of a worker with an open transaction whom nothing holds up. -/
structure Manned (o : Overlap) : Prop where
  seated : o.engine.Seated
  sorted : Ordered.Sorted (fun a b : Nat => decide (a < b)) o.engine.workers
  callers : ∀ id c, o.calls id = some c →
    ∃ w t, o.engine.worker? id = some w ∧ w.current = some t ∧ w.blocked = none

section Keep
variable {u : Engine} {calls : Nat → Option CommitCall}

/-- A commit of a worker goes on, and its worker stays as it is. -/
theorem Manned.set (h : o.Manned) (hw : o.engine.worker? id = some w) (ht : w.current = some t)
    (hfree : w.blocked = none) (hworkers : u.workers = o.engine.workers)
    (hbarrier : u.barrier = o.engine.barrier) (c : CommitCall) :
    (o.set u id (some c)).Manned where
  seated i x hx := by
    rw [Overlap.set, worker?, hworkers] at hx
    rw [Overlap.set, hbarrier]
    exact h.seated i x hx
  sorted := hworkers ▸ h.sorted
  callers i c' hc' := by
    have hsame : (o.set u id (some c)).engine.worker? i = o.engine.worker? i :=
      congrArg (·.lookup i) hworkers
    rw [hsame]
    by_cases hi : i = id
    · exact ⟨w, t, hi ▸ hw, ht, hfree⟩
    · exact h.callers i c' ((Function.update_of_ne hi _ _).symm.trans hc')

/-- A worker changes, and no commit of it is under way unless it has a transaction. -/
theorem Manned.put (h : o.Manned) (hw : o.engine.worker? id = some w) (hid : v.id = id)
    (hworkers : u.workers = o.engine.workers) (hseats : o.engine.barrier.Seats u.barrier)
    (hcalls : ∀ i, i ≠ id → calls i = o.calls i)
    (hself : ∀ c, calls id = some c → ∃ t, v.current = some t ∧ v.blocked = none) :
    Manned ⟨u.put v, calls⟩ where
  seated := h.seated.concerned (concerns_put_nil hid (h.seated id w hw).2 hworkers hseats)
  sorted := by
    have hsorted := h.sorted
    rw [← hworkers] at hsorted
    exact Ordered.sorted_insertWith _ hsorted
  callers i c hc := by
    change ∃ x t, (u.put v).worker? i = some x ∧ _
    rw [worker?_put]
    by_cases hi : i = id
    · subst hi
      obtain ⟨t, ht, hfree⟩ := hself c hc
      exact ⟨v, t, if_pos hid.symm, ht, hfree⟩
    · rw [if_neg (hid.symm ▸ hi), worker?, hworkers]
      exact h.callers i c ((hcalls i hi).symm.trans hc)

/-- A worker of which no commit is under way, or no longer, comes to its boundary. -/
theorem Manned.enterBoundary (h : o.Manned) (hw : o.engine.worker? id = some w) (hid : v.id = id)
    (hworkers : u.workers = o.engine.workers) (hbarrier : u.barrier = o.engine.barrier)
    (hcalls : ∀ i, i ≠ id → calls i = o.calls i) (hself : calls id = none) (call : EndCall)
    (result : Except Fault Unit) : Manned ⟨(u.enterBoundary v call result).2, calls⟩ := by
  have hnone : ∀ (x : Worker) c, calls id = some c →
      ∃ t, x.current = some t ∧ x.blocked = none := by
    intro x c hc
    cases hself.symm.trans hc
  rcases u.enterBoundary_inv v call result with ⟨f, -, henter⟩ | ⟨barrier, hseats, henter⟩
  · rw [henter]
    exact h.put (v := { v with blocked := none }) hw hid hworkers (hbarrier ▸ .refl _) hcalls
      (hnone _)
  · rw [henter]
    exact h.put (u := { u with barrier })
      (v := { v with blocked := some (.atBoundary call result) }) hw hid hworkers
      (hbarrier ▸ hseats) hcalls (hnone _)

end Keep

section Actions
variable {a : EngineAction} {x : List EngineEvent × Engine}

/-- An action of an engine puts a worker in its place, removes one or leaves the workers alone. -/
theorem sorted_acts (h : o.engine.Acts a x)
    (hsorted : Ordered.Sorted (fun a b : Nat => decide (a < b)) o.engine.workers) :
    Ordered.Sorted (fun a b : Nat => decide (a < b)) x.2.workers := by
  have hput : ∀ {u : Engine} (w : Worker), u.workers = o.engine.workers →
      Ordered.Sorted (fun a b : Nat => decide (a < b)) (u.put w).workers := by
    intro u w hworkers
    rw [← hworkers] at hsorted
    exact Ordered.sorted_insertWith _ hsorted
  cases h with
  | aside a e' events huntouched _ => exact huntouched.workers ▸ hsorted
  | joined i v u huntouched _ _ _ _ => exact hput v huntouched.workers
  | linked i calls v link _ => exact hput _ rfl
  | executed i name index args v _ answer e' hexecuted =>
      have hbegun := fun template => (begun_workers o.engine v template).2.1
      cases hexecuted with
      | refused f _ => exact hsorted
      | keyless q f _ _ => exact hput _ (hbegun q.template)
      | lost q key f _ _ _ => exact hput _ (hbegun q.template)
      | answered q key outcome link _ _ _ => exact hput _ (hbegun q.template)
  | closed i v _ _ => exact List.Pairwise.filter _ hsorted
  | left i v _ call result boundary _ u e' huntouched hleaving =>
      obtain ⟨barrier, levels, protocol, blocked, rfl, -⟩ := hleaving.crossed
      exact hput _ huntouched.workers

/-- An action of an engine leaves the worker of a commit that is under way its transaction. -/
theorem Manned.callers_acts (h : o.Manned) (hacts : o.engine.Acts a x)
    (hconcerns : o.engine.Concerns (Turn.plain (.action a)).worker? x)
    (hcaller : ∀ id, caller? a = some id → o.calls id = none) {c : CommitCall}
    (hc : o.calls id = some c) :
    ∃ w t, x.2.worker? id = some w ∧ w.current = some t ∧ w.blocked = none := by
  obtain ⟨w, t, hw, ht, hfree⟩ := h.callers id c hc
  by_cases hwho : (Turn.plain (.action a)).worker? = some id
  · cases hacts with
    | aside a e' events huntouched _ =>
        exact ⟨w, t, by rw [worker?, huntouched.workers]; exact hw, ht, hfree⟩
    | joined i v u _ hnone _ _ _ =>
        obtain rfl := Option.some.inj hwho
        cases hnone.symm.trans hw
    | linked i calls v link hw' =>
        obtain rfl := Option.some.inj hwho
        obtain rfl := Option.some.inj (hw.symm.trans hw')
        exact ⟨{ w with link }, t, by rw [worker?_put, if_pos (h.seated i w hw).1.symm], ht, hfree⟩
    | executed i name index args v _ answer e' _ =>
        obtain rfl := Option.some.inj hwho
        cases (hcaller i rfl).symm.trans hc
    | closed i v _ _ =>
        obtain rfl := Option.some.inj hwho
        cases (hcaller i rfl).symm.trans hc
    | left i v hw' call result boundary hblocked _ _ _ _ =>
        obtain rfl := Option.some.inj hwho
        obtain rfl := Option.some.inj (hw.symm.trans hw')
        cases hfree.symm.trans hblocked
  · exact ⟨w, t, (hconcerns.workers id hwho).trans hw, ht, hfree⟩

end Actions

/-- Every move of a commit keeps its worker's transaction open until the commit ends. -/
theorem Manned.advance (h : o.Manned) (hw : o.engine.worker? w.id = some w)
    (ht : w.current = some t) (hcall : o.calls w.id = some c) : (o.advance w c t).2.Manned := by
  have hfree : w.blocked = none := by
    obtain ⟨x, -, hx, -, hfree⟩ := h.callers w.id c hcall
    exact Option.some.inj (hw.symm.trans hx) ▸ hfree
  have hothers : ∀ c' i, i ≠ w.id → Function.update o.calls w.id c' i = o.calls i :=
    fun c' i hi => Function.update_of_ne hi _ _
  have hset : ∀ locks c', (o.set { o.engine with locks } w.id (some c')).Manned :=
    fun locks c' => h.set (u := { o.engine with locks }) hw ht hfree rfl rfl c'
  have hconclude : ∀ u committed result, u.workers = o.engine.workers →
      u.barrier = o.engine.barrier → (o.conclude w u committed result).2.Manned := by
    intro u committed result hworkers hbarrier
    cases committed with
    | true =>
        exact h.enterBoundary hw (v := { w with current := none })
          (u := { u with counters := u.counters.finish true }) rfl hworkers hbarrier
          (hothers none) (Function.update_self ..) .commit result
    | false =>
        exact h.enterBoundary hw (v := { w with link := w.link.rollback.2, current := none })
          (u := { u with counters := u.counters.finish false }) rfl hworkers hbarrier
          (hothers none) (Function.update_self ..) .commit result
  simp only [Overlap.advance]
  split
  · exact hconclude _ _ _ rfl rfl
  · exact hset _ _
  · rename_i r _ _ _
    cases r with
    | fault f => exact hconclude _ _ _ rfl rfl
    | conflicts found =>
        simp only [giveUp]
        split
        · exact hconclude _ _ _ rfl rfl
        · obtain ⟨f, counters, hreject, -, -⟩ := o.engine.reject_inv found
          rw [hreject]
          exact hconclude _ _ _ rfl rfl
  · exact h
  · simp only [askStore]
    split
    · exact hset _ _
    · rename_i link store _
      exact h.put (u := { o.engine with store }) (v := { w with link }) hw rfl rfl (.refl _)
        (hothers _) fun _ _ => ⟨t, ht, hfree⟩
  · exact hset _ _

theorem Manned.take (h : o.Manned) (m : OverlapMove) : (o.take m).2.Manned := by
  have hmoves := moves_take h.seated m
  generalize o.take m = x at hmoves
  cases hmoves with
  | rests => exact h
  | acts a x hacts hconcerns _ hcaller =>
      exact ⟨h.seated.concerned hconcerns, sorted_acts hacts h.sorted,
        fun _ _ hc => h.callers_acts hacts hconcerns hcaller hc⟩
  | absent id call _ => exact h
  | begins w t hw ht hfree hcall => exact h.set hw ht hfree rfl rfl _
  | rollsBack w t hw _ _ hcall x hx =>
      rw [← hx]
      exact h.enterBoundary hw (v := { w with link := w.link.rollback.2, current := none })
        (u := { o.engine with counters := o.engine.counters.finish false }) rfl rfl rfl
        (fun _ _ => rfl) hcall .rollback _
  | passes w call hw _ _ hcall x hx =>
      rw [← hx]
      exact h.enterBoundary hw rfl rfl rfl (fun _ _ => rfl) hcall call (.ok ())
  | proceeds w t c hw ht hcall => exact h.advance hw ht hcall

theorem manned_start {workload : Workload} {config : EngineConfig} {keys : KeyRule} {e : Engine}
    (h : create workload config keys = .ok e) (store : Store) :
    (start { e with store }).Manned := by
  obtain ⟨protocol, locks, -, -, rfl⟩ := create_eq_ok h
  exact ⟨nofun, List.Pairwise.nil, nofun⟩

end Overlap

end LiveIsolation
