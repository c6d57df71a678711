import LiveIsolation.Engine.Commit
import LiveIsolation.Engine.Execute
import LiveIsolation.Proofs.Barrier.Safety
import LiveIsolation.Proofs.Store

/-!
# Runs of an engine

A run is a list of actions, each taken to its end: calls of workers, requests for a switch,
what happens to the store, and the steps by which a switch goes on. Calls do not overlap, but a
call that is stopped at the boundary ends in a later action, and any other actions may come in
between. What the engine does by itself until it waits for a call again (`Engine.settle`) is a run
of such actions (`Engine.drifts_settle`).

## Implementation notes

An action is total. A worker whose call is stopped can take no other call. A link can be told
to fail every kind of call but a rollback, which a store that is unavailable serves too. So an
outage can begin and end between calls of two kinds. All questions of one kind that a commit asks
meet one state of the store; a commit with an outage between two of them is a turn (`Turn.commit`).
-/

namespace LiveIsolation

inductive EngineAction where
  | connect (worker : Nat)
  | execute (worker : Nat) (transaction : String) (index : Nat) (args : List Value)
  | finish (worker : Nat) (call : EndCall)
  | close (worker : Nat)
  /-- A request for a switch joins the queue. -/
  | request (target : Protocol)
  /-- A row is committed from outside. -/
  | seed (place : Place) (value : Value)
  /-- The store becomes unavailable or available again. -/
  | outage (on : Bool)
  /-- From now on certain calls of a worker do not get through to the store. -/
  | fail (worker : Nat) (calls : List StoreCall)
  | beginRequest
  | advance
  /-- A worker that was stopped at its boundary goes on. -/
  | resume (worker : Nat)
  deriving DecidableEq, Repr

namespace Engine

/-- The worker's last call has not ended. -/
def busy (e : Engine) (id : Nat) : Bool := (e.worker? id).any (·.blocked.isSome)

/-- Tells a worker's link which calls fail. -/
def fail (e : Engine) (id : Nat) (calls : List StoreCall) : Engine :=
  match e.worker? id with
  | some w => e.put { w with link.failing := calls.filter (· != .rollback) }
  | none => e

/-- The stopped workers are those of a list. -/
def withStopped (e : Engine) (stopped : List Nat) : Engine :=
  { e with barrier := { e.barrier with stopped } }

/-- Takes an action, by which calls may come to their end. -/
def take (e : Engine) : EngineAction → List EngineEvent × Engine
  | .connect id => ([], (e.connect id [] none).2)
  | .execute id name index args =>
    if e.busy id then ([], e) else ([], (e.execute id name index args).2)
  | .finish id call => if e.busy id then ([], e) else e.start id call
  | .close id => if e.busy id then ([], e) else ([], (e.close id).2)
  | .request target => ([], e.requestSwitch target)
  | .seed place value => ([], { e with store := (e.store.seed place value).2 })
  | .outage on => ([], { e with store.unavailable := on })
  | .fail id calls => ([], e.fail id calls)
  | .beginRequest =>
    match e.barrier.begin? with
    | some (report, barrier) => (report.toList.map .switched, { e with barrier })
    | none => ([], e)
  | .advance =>
    match e.barrier.advance? with
    | some (report, barrier) => (report.toList.map .switched, { e with barrier })
    | none => ([], e)
  | .resume id =>
    if id ∈ e.barrier.stopped ∧ e.barrier.phase ≠ .awaitingReady then
      (e.withStopped (e.barrier.stopped.erase id)).resume id
    else ([], e)

section Calls

variable {e : Engine} {w : Worker} {id : Nat}

theorem take_execute (hidle : e.busy id = false) (name : String) (index : Nat)
    (args : List Value) :
    e.take (.execute id name index args) = ([], (e.execute id name index args).2) := by
  simp only [take, hidle, Bool.false_eq_true, if_false]

theorem take_execute_of_busy (hbusy : e.busy id = true) (name : String) (index : Nat)
    (args : List Value) : e.take (.execute id name index args) = ([], e) := by
  simp only [take, hbusy, if_true]

theorem start_of_none (hw : e.worker? id = none) (call : EndCall) : (e.start id call).2 = e := by
  simp only [start, hw]

theorem start_commit (hw : e.worker? id = some w) : e.start id .commit = e.startCommit w := by
  simp only [start, hw]

theorem start_rollback (hw : e.worker? id = some w) :
    e.start id .rollback = e.startRollback w := by
  simp only [start, hw]

/-- Only a worker that is stopped at its boundary goes on. -/
theorem resume_inv (e : Engine) (id : Nat) :
    (∃ w call result, e.worker? id = some w ∧ w.blocked = some (.atBoundary call result) ∧
        e.resume id = e.leave w call result) ∨
      ((¬∃ w call result, e.worker? id = some w ∧ w.blocked = some (.atBoundary call result)) ∧
        e.resume id = ([], e)) := by
  cases hw : e.worker? id with
  | none =>
      refine .inr ⟨?_, by simp only [resume, hw]⟩
      rintro ⟨w, call, result, hsome, -⟩
      cases hsome
  | some w =>
      by_cases hblocked : ∃ call result, w.blocked = some (.atBoundary call result)
      · obtain ⟨call, result, hblocked⟩ := hblocked
        exact .inl ⟨w, call, result, rfl, hblocked, by simp only [resume, hw, hblocked]⟩
      · refine .inr ⟨?_, ?_⟩
        · rintro ⟨x, call, result, hx, hstopped⟩
          rw [Option.some.injEq] at hx
          exact hblocked ⟨call, result, hx ▸ hstopped⟩
        · simp only [resume, hw]
          split
          · rename_i call result hstopped
            exact absurd ⟨call, result, hstopped⟩ hblocked
          · rfl

/-- What comes of a worker that is connected. The barrier may not let it in, and the store may
refuse its level. The number of its connection is used up in every case. -/
inductive Connecting (e : Engine) (id : Nat) (permits : Option Nat) : Engine → Prop where
  | refused (f : Fault) (h : e.barrier.register id = .error f) :
    Connecting e id permits { e with store.nextConnection := e.store.nextConnection + 1 }
  | denied (start : Protocol) (barrier : Barrier)
    (h : e.barrier.register id = .ok (start, barrier)) :
    Connecting e id permits
      { e with
        store.nextConnection := e.store.nextConnection + 1
        barrier := barrier.deregister id }
  | joined (start : Protocol) (barrier : Barrier) (levels : List (Nat × IsolationLevel))
    (h : e.barrier.register id = .ok (start, barrier)) :
    Connecting e id permits
      ({ e with
        store.nextConnection := e.store.nextConnection + 1
        store.levels := levels
        barrier }.put
        { id, protocol := start
          link := { connection := { id := e.store.nextConnection }, permits } })

theorem connecting_connect (e : Engine) (id : Nat) (permits : Option Nat) :
    e.Connecting id permits (e.connect id [] permits).2 := by
  unfold Engine.connect Store.connect
  dsimp only
  split
  · rename_i f hregister
    exact .refused f hregister
  · rename_i start barrier hregister
    split
    · exact .denied start barrier hregister
    · rename_i store hlevel
      obtain ⟨-, -, rfl⟩ := Link.setLevel_eq_ok.1 hlevel
      exact .joined start barrier _ hregister

/-- The engine without a worker that it had. -/
def without (e : Engine) (id : Nat) (counters : Counters) : Engine :=
  { e with
    counters
    barrier := e.barrier.deregister id
    workers := e.workers.filter (·.1 != id) }

theorem worker?_without (e : Engine) (id : Nat) (counters : Counters) (i : Nat) :
    (e.without id counters).worker? i = if i = id then none else e.worker? i := by
  change (e.workers.filter (·.1 != id)).lookup i = _
  rw [Ordered.lookup_filter_key (· != id)]
  by_cases hi : i = id
  · rw [if_pos hi, if_neg (by simp [hi])]
  · rw [if_neg hi, if_pos (by simpa using hi)]
    rfl

theorem worker?_of_without {counters : Counters} {i : Nat}
    (h : (e.without id counters).worker? i = some w) : e.worker? i = some w := by
  rw [worker?_without] at h
  split at h
  · cases h
  · exact h

/-- A worker that is closed is gone, and a transaction that it had open counts as aborted. -/
theorem close_inv (e : Engine) (id : Nat) :
    (e.worker? id = none ∧ (e.close id).2 = e) ∨
      ∃ w, e.worker? id = some w ∧
        (e.close id).2 =
          e.without id (w.current.elim e.counters fun _ => e.counters.finish false) := by
  cases hw : e.worker? id with
  | none => exact .inl ⟨rfl, by simp only [Engine.close, withWorker, hw]⟩
  | some w =>
      refine .inr ⟨w, rfl, ?_⟩
      simp only [Engine.close, withWorker, hw]
      cases w.current with
      | none => rfl
      | some t => rfl

end Calls

/-- A new engine has an empty store and no workers. -/
theorem create_eq_ok {workload : Workload} {config : EngineConfig} {keys : KeyRule} {e : Engine}
    (h : create workload config keys = .ok e) :
    ∃ protocol locks, config.protocol = .ok protocol ∧
      LockTable.create workload.relations config.lockTable = .ok locks ∧
      e = { workload, config, keys, locks
            barrier := .ofProtocol protocol
            store := { keys } } := by
  simp only [create] at h
  cases hvalid : config.validate with
  | error f =>
      rw [hvalid] at h
      cases h
  | ok u =>
      rw [hvalid] at h
      cases hprotocol : config.protocol with
      | error f =>
          rw [hprotocol] at h
          cases h
      | ok protocol =>
          rw [hprotocol] at h
          cases hlocks : LockTable.create workload.relations config.lockTable with
          | error f =>
              rw [hlocks] at h
              cases h
          | ok locks =>
              rw [hlocks] at h
              cases h
              exact ⟨protocol, locks, rfl, rfl, rfl⟩

/-- What can be tested of a new engine is the case if the test is passed. -/
theorem exists_create (workload : Workload) (config : EngineConfig) (keys : KeyRule)
    (P : Engine → Prop) [DecidablePred P]
    (h : (create workload config keys).toOption.any (fun e => decide (P e)) = true) :
    ∃ e, create workload config keys = .ok e ∧ P e := by
  cases hcreate : create workload config keys with
  | error f =>
      rw [hcreate] at h
      cases h
  | ok e =>
      rw [hcreate] at h
      exact ⟨e, rfl, of_decide_eq_true h⟩

/-- A workload whose only template reads a row and writes it. Analysis finds no danger in it. -/
def bumping : Workload where
  templates := [{
    id := 0
    name := "bump"
    statements := [{ kind := .read, relation := "x", bindings := [⟨0, "id"⟩] },
      { kind := .write, relation := "x", bindings := [⟨0, "id"⟩] }] }]
  graph := ⟨1, []⟩
  report := {}

/-- The engine after a run. -/
def run (e : Engine) (actions : List EngineAction) : Engine :=
  actions.foldl (fun e a => (e.take a).2) e

theorem run_append (e : Engine) (first second : List EngineAction) :
    e.run (first ++ second) = (e.run first).run second :=
  List.foldl_append

section Boundary

variable {e e' : Engine} {w : Worker} {call : EndCall} {result : Except Fault Unit}
  {events : List EngineEvent}

/-- How a worker leaves its boundary. It may be told a protocol, and then the store may accept
its level or not. -/
inductive Leaving (e : Engine) (w : Worker) : Except Fault Unit → Engine → Prop where
  | missing (f : Fault) (h : e.barrier.leave w.id = .error f) :
    Leaving e w (.error f) (e.put { w with blocked := none })
  | untold (b : Barrier) (h : e.barrier.leave w.id = .ok (none, b)) :
    Leaving e w (.ok ()) ({ e with barrier := b }.put { w with blocked := none })
  | denied (next : Protocol) (b : Barrier) (f : Fault)
    (h : e.barrier.leave w.id = .ok (some next, b))
    (hlevel : w.link.setLevel e.store next.level = .error f) :
    Leaving e w (.error f) ({ e with barrier := b }.put { w with blocked := none })
  | switched (next : Protocol) (b : Barrier) (store : Store)
    (h : e.barrier.leave w.id = .ok (some next, b))
    (hlevel : w.link.setLevel e.store next.level = .ok store) :
    Leaving e w (.ok ())
      ({ e with barrier := b, store }.put { w with protocol := next, blocked := none })

/-- A worker that leaves its boundary ends its call. -/
theorem leave_inv (h : e.leave w call result = (events, e')) :
    ∃ boundary, events = [.ended call w.id (Fault.first result boundary)] ∧
      Leaving e w boundary e' := by
  unfold leave endCall at h
  split at h
  · rename_i f hleave
    cases h
    exact ⟨.error f, rfl, .missing f hleave⟩
  · rename_i b hleave
    cases h
    exact ⟨.ok (), rfl, .untold b hleave⟩
  · rename_i next b hleave
    dsimp only at h
    split at h
    · rename_i f hlevel
      cases h
      exact ⟨.error f, rfl, .denied next b f hleave hlevel⟩
    · rename_i store hlevel
      cases h
      exact ⟨.ok (), rfl, .switched next b store hleave hlevel⟩

/-- A worker that comes to its boundary is missed there, is stopped, or leaves at once. -/
theorem passBoundary_inv (h : e.passBoundary w call result = (events, e')) :
    (∃ f, e.barrier.enter w.id = .error f ∧
        events = [.ended call w.id (Fault.first result (.error f))] ∧
        e' = e.put { w with blocked := none }) ∨
      (∃ b, e.barrier.enter w.id = .ok (none, b) ∧ events = [] ∧
        e' = { e with barrier := b }.put { w with blocked := some (.atBoundary call result) }) ∨
      (∃ required boundary, e.barrier.enter w.id = .ok (some required, e.barrier) ∧
        events = [.ended call w.id (Fault.first result boundary)] ∧ Leaving e w boundary e') := by
  simp only [passBoundary] at h
  split at h
  · rename_i f henter
    simp only [endCall] at h
    cases h
    exact .inl ⟨f, henter, rfl, rfl⟩
  · rename_i b henter
    cases h
    exact .inr (.inl ⟨b, henter, rfl, rfl⟩)
  · rename_i required b henter
    have hb : b = e.barrier := by
      obtain ⟨m, -, hstop | hpass⟩ := Barrier.enter_eq_ok henter
      · cases hstop.2.2.1
      · exact hpass.2.2
    subst hb
    obtain ⟨boundary, hevents, hleaving⟩ := leave_inv h
    exact .inr (.inr ⟨required, boundary, henter, hevents, hleaving⟩)

/-- At a boundary nothing changes but the marks of the barrier, the levels that the store has
recorded, and what the worker knows of the two. -/
def Crossed (e : Engine) (w : Worker) (e' : Engine) : Prop :=
  ∃ barrier levels protocol blocked,
    e' = { e with barrier, store.levels := levels }.put { w with protocol, blocked } ∧
      e.barrier.Keeps barrier

theorem Leaving.crossed {boundary : Except Fault Unit} (h : Leaving e w boundary e') :
    e.Crossed w e' := by
  cases h with
  | missing f _ => exact ⟨e.barrier, e.store.levels, w.protocol, none, rfl, .refl _⟩
  | untold b hleave => exact ⟨b, e.store.levels, w.protocol, none, rfl, Barrier.keeps_leave hleave⟩
  | denied next b f hleave _ =>
      exact ⟨b, e.store.levels, w.protocol, none, rfl, Barrier.keeps_leave hleave⟩
  | switched next b store hleave hlevel =>
      rw [(Link.setLevel_eq_ok.1 hlevel).2.2]
      exact ⟨b, _, next, none, rfl, Barrier.keeps_leave hleave⟩

theorem passBoundary_crossed (e : Engine) (w : Worker) (call : EndCall)
    (result : Except Fault Unit) : e.Crossed w (e.passBoundary w call result).2 := by
  obtain ⟨f, -, -, he⟩ | ⟨b, henter, -, he⟩ | ⟨required, boundary, -, -, hleaving⟩ :=
    passBoundary_inv (Prod.eta (e.passBoundary w call result)).symm
  · rw [he]
    exact ⟨e.barrier, e.store.levels, w.protocol, none, rfl, .refl _⟩
  · rw [he]
    exact ⟨b, e.store.levels, w.protocol, _, rfl, Barrier.keeps_enter henter⟩
  · exact hleaving.crossed

/-- A worker that leaves its boundary does not change the phase. -/
theorem Leaving.phase {boundary : Except Fault Unit} (h : Leaving e w boundary e') :
    e'.barrier.phase = e.barrier.phase := by
  cases h with
  | missing f _ => rfl
  | untold b hleave => exact Barrier.phase_leave hleave
  | denied next b f hleave _ => exact Barrier.phase_leave hleave
  | switched next b store hleave _ => exact Barrier.phase_leave hleave

theorem resume_phase (e : Engine) (id : Nat) : (e.resume id).2.barrier.phase = e.barrier.phase := by
  rcases e.resume_inv id with ⟨w, call, result, -, -, hresume⟩ | ⟨-, hresume⟩
  · obtain ⟨boundary, -, hleaving⟩ := leave_inv (Prod.eta (e.leave w call result)).symm
    rw [hresume]
    exact hleaving.phase
  · rw [hresume]

end Boundary

section Settle

variable {e e' e'' : Engine}

/-- Some steps that an engine takes by itself lead from one state to another: requests begin,
switches go on, and stopped workers too. -/
def Drifts (e e' : Engine) : Prop :=
  ∃ actions : List EngineAction,
    (∀ a ∈ actions, a = .beginRequest ∨ a = .advance ∨ ∃ id, a = .resume id) ∧
      e' = e.run actions

theorem Drifts.refl (e : Engine) : e.Drifts e :=
  ⟨[], fun _ ha => absurd ha List.not_mem_nil, rfl⟩

theorem Drifts.trans (h : e.Drifts e') (h' : e'.Drifts e'') : e.Drifts e'' := by
  obtain ⟨first, hfirst, rfl⟩ := h
  obtain ⟨second, hsecond, rfl⟩ := h'
  refine ⟨first ++ second, ?_, (run_append e first second).symm⟩
  intro a ha
  rcases List.mem_append.1 ha with ha | ha
  · exact hfirst a ha
  · exact hsecond a ha

theorem drifts_begin? {report : Option SwitchReport} {barrier : Barrier}
    (h : e.barrier.begin? = some (report, barrier)) : e.Drifts { e with barrier } := by
  refine ⟨[.beginRequest], ?_, ?_⟩
  · intro a ha
    exact .inl (List.mem_singleton.1 ha)
  · simp only [run, List.foldl_cons, List.foldl_nil, take, h]

theorem drifts_advance? {report : Option SwitchReport} {barrier : Barrier}
    (h : e.barrier.advance? = some (report, barrier)) : e.Drifts { e with barrier } := by
  refine ⟨[.advance], ?_, ?_⟩
  · intro a ha
    exact .inr (.inl (List.mem_singleton.1 ha))
  · simp only [run, List.foldl_cons, List.foldl_nil, take, h]

theorem drifts_advance (e : Engine) : e.Drifts e.advance.2 := by
  simp only [advance, Barrier.advance]
  split
  · exact .refl e
  · rename_i h
    exact drifts_advance? h
  · rename_i barrier h
    split
    · exact drifts_advance? h
    · rename_i h'
      exact (drifts_advance? h).trans (drifts_advance? h')

/-- A worker that leaves its boundary does not look at who else is stopped. -/
theorem leave_withStopped (e : Engine) (ids : List Nat) (w : Worker) (call : EndCall)
    (result : Except Fault Unit) :
    (e.withStopped ids).leave w call result =
      ((e.leave w call result).1, (e.leave w call result).2.withStopped ids) := by
  have hbarrier : (e.withStopped ids).barrier.leave w.id =
      (e.barrier.leave w.id).map fun r => (r.1, { r.2 with stopped := ids }) :=
    e.barrier.leave_stopped ids w.id
  simp only [leave]
  rw [hbarrier]
  cases e.barrier.leave w.id with
  | error f => rfl
  | ok r =>
      obtain ⟨told, barrier⟩ := r
      cases told with
      | none => rfl
      | some next =>
          simp only [Except.map, withStopped]
          cases w.link.setLevel e.store next.level with
          | error f => rfl
          | ok store => rfl

theorem resume_withStopped (e : Engine) (ids : List Nat) (id : Nat) :
    (e.withStopped ids).resume id = ((e.resume id).1, (e.resume id).2.withStopped ids) := by
  have hworker : (e.withStopped ids).worker? id = e.worker? id := rfl
  simp only [resume]
  rw [hworker]
  cases e.worker? id with
  | none => rfl
  | some w =>
      dsimp only
      split
      · exact leave_withStopped ..
      · rfl

/-- The stopped workers go on one after another. -/
theorem drifts_resumeAll (hphase : e.barrier.phase ≠ .awaitingReady) (ids : List Nat) :
    (e.withStopped ids).Drifts ((e.withStopped []).resumeAll ids).2 := by
  induction ids generalizing e with
  | nil => exact .refl _
  | cons id rest ih =>
      have hfirst : (e.withStopped (id :: rest)).Drifts ((e.resume id).2.withStopped rest) := by
        refine ⟨[.resume id], ?_, ?_⟩
        · intro a ha
          exact .inr (.inr ⟨id, List.mem_singleton.1 ha⟩)
        · have hmem : id ∈ (e.withStopped (id :: rest)).barrier.stopped ∧
              (e.withStopped (id :: rest)).barrier.phase ≠ .awaitingReady :=
            ⟨List.mem_cons_self, hphase⟩
          simp only [run, List.foldl_cons, List.foldl_nil, take, if_pos hmem, resume_withStopped]
          simp [withStopped]
      have hrest := ih (e := (e.resume id).2) (by rw [resume_phase]; exact hphase)
      simp only [resumeAll, resume_withStopped]
      exact hfirst.trans hrest

theorem drifts_proceed (e : Engine) : e.Drifts e.proceed.2 := by
  apply (drifts_advance e).trans
  simp only [proceed]
  generalize e.advance = first
  obtain ⟨events, e⟩ := first
  dsimp only
  by_cases hphase : e.barrier.phase = .awaitingReady
  · simp only [Barrier.resume, if_pos hphase, resumeAll]
    exact drifts_advance e
  · simp only [Barrier.resume, if_neg hphase]
    exact (drifts_resumeAll hphase e.barrier.stopped).trans (drifts_advance _)

theorem drifts_settleWithin (n : Nat) (e : Engine) : e.Drifts (e.settleWithin n).2 := by
  induction n generalizing e with
  | zero => exact drifts_proceed e
  | succ n ih =>
      apply (drifts_proceed e).trans
      unfold settleWithin
      generalize e.proceed = first
      obtain ⟨events, e⟩ := first
      dsimp only
      cases hbegin : e.barrier.begin? with
      | none => exact .refl e
      | some r => exact (drifts_begin? hbegin).trans (ih _)

/-- What an engine does until it waits for a call again is a run of single steps. -/
theorem drifts_settle (e : Engine) : e.Drifts e.settle.2 := drifts_settleWithin _ e

end Settle

end Engine

end LiveIsolation
