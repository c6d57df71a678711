import LiveIsolation.Proofs.Barrier.History
import LiveIsolation.Proofs.Engine.Transactions
import LiveIsolation.Proofs.Engine.Turn

/-!
# Whom a turn concerns

A turn is the turn of one worker or of none. Every other worker stays as it is, no call of it ends,
and it keeps its seat at the barrier (`Engine.Concerns`). Each connected worker has a seat
(`Engine.Seated`), so that nobody can be connected in its place. A worker whose call is held up
therefore waits until it is let on (`Engine.Seated.turn_waits`).
-/

namespace LiveIsolation

namespace Barrier

variable {b c : Barrier} {worker : Nat}

/-- The same workers take part. -/
def Seats (b c : Barrier) : Prop := ∀ i, (c.marks? i).isSome = (b.marks? i).isSome

theorem Seats.refl (b : Barrier) : b.Seats b := fun _ => rfl

theorem seats_mark {m : SwitchMarks} (hm : b.marks? worker = some m) (m' : SwitchMarks) :
    b.Seats (b.mark worker m') := by
  intro i
  rw [marks?_mark]
  split
  · rename_i hi
    rw [hi, hm]
    rfl
  · rfl

theorem seats_clearMarks (b : Barrier) : b.Seats b.clearMarks := by
  intro i
  rw [marks?_clearMarks, Option.isSome_map]

theorem seats_enter {required : Option Protocol} (h : b.enter worker = .ok (required, c)) :
    b.Seats c := by
  obtain ⟨m, hm, ⟨-, -, -, rfl⟩ | ⟨-, -, rfl⟩⟩ := enter_eq_ok h
  · exact seats_mark hm { m with ready := true }
  · exact .refl _

theorem seats_leave {told : Option Protocol} (h : b.leave worker = .ok (told, c)) : b.Seats c := by
  obtain ⟨m, hm, ⟨-, -, -, rfl⟩ | ⟨-, -, rfl⟩⟩ := leave_eq_ok h
  · exact seats_mark hm _
  · exact .refl _

theorem seats_begin? {report : Option SwitchReport} (h : b.begin? = some (report, c)) :
    b.Seats c := by
  obtain ⟨-, target, queue, -, ⟨-, -, rfl⟩ | ⟨-, -, rfl⟩⟩ := begin?_eq_some h
  · exact .refl b
  · exact b.seats_clearMarks

theorem seats_advance? {report : Option SwitchReport} (h : b.advance? = some (report, c)) :
    b.Seats c := by
  rcases advance?_eq_some h with ⟨-, -, rfl⟩ | ⟨-, -, rfl⟩
  · exact .refl b
  · exact b.seats_clearMarks

end Barrier

namespace Engine

variable {e e₁ : Engine} {w w₁ : Worker} {id : Nat} {who : Option Nat}
  {x : List EngineEvent × Engine}

/-- Every connected worker has a seat at the barrier, and the number that it is found under. -/
def Seated (e : Engine) : Prop :=
  ∀ id w, e.worker? id = some w → w.id = id ∧ (e.barrier.marks? id).isSome = true

/-- Something is about one worker or none: the other workers are as they were, with their seats,
and no call of theirs ends. -/
structure Concerns (e : Engine) (who : Option Nat) (x : List EngineEvent × Engine) : Prop where
  workers : ∀ i, who ≠ some i → x.2.worker? i = e.worker? i
  seats : ∀ i, who ≠ some i → (x.2.barrier.marks? i).isSome = (e.barrier.marks? i).isSome
  ended : ∀ call i result, .ended call i result ∈ x.1 → who = some i
  seated : ∀ i w, who = some i → x.2.worker? i = some w →
    w.id = i ∧ (x.2.barrier.marks? i).isSome = true

theorem Seated.concerned (h : e.Seated) (hx : e.Concerns who x) : x.2.Seated := by
  intro i w hw
  by_cases hi : who = some i
  · exact hx.seated i w hi hw
  · rw [hx.workers i hi] at hw
    rw [hx.seats i hi]
    exact h i w hw

/-- The workers have not changed. -/
theorem Seated.concerns_same (h : e.Seated) (who : Option Nat) {events : List EngineEvent}
    (hworkers : e₁.workers = e.workers) (hseats : e.barrier.Seats e₁.barrier)
    (hevents : ∀ call i result, .ended call i result ∉ events) :
    e.Concerns who (events, e₁) where
  workers i _ := by rw [worker?, hworkers, worker?]
  seats i _ := hseats i
  ended call i result hmem := absurd hmem (hevents call i result)
  seated i w _ hw := by
    rw [worker?, hworkers] at hw
    rw [hseats i]
    exact h i w hw

/-- A worker has changed, and perhaps its marks at the barrier. -/
theorem concerns_put {events : List EngineEvent} (hid : w.id = id)
    (hseat : (e.barrier.marks? id).isSome = true) (hworkers : e₁.workers = e.workers)
    (hseats : e.barrier.Seats e₁.barrier)
    (hevents : ∀ call i result, .ended call i result ∈ events → id = i) :
    e.Concerns (some id) (events, e₁.put w) where
  workers i hi := by
    have hne : i ≠ w.id := fun he => hi (congrArg some (he.trans hid).symm)
    rw [worker?_put, if_neg hne, worker?, hworkers, worker?]
  seats i _ := hseats i
  ended call i result hmem := congrArg some (hevents call i result hmem)
  seated i w' hi hw' := by
    obtain rfl := Option.some.inj hi
    rw [worker?_put, if_pos hid.symm, Option.some.injEq] at hw'
    exact ⟨hw' ▸ hid, (hseats id).trans hseat⟩

/-- Where nothing happens, no call ends. -/
theorem not_ended : ∀ call i result, EngineEvent.ended call i result ∈ [] → some id = some i :=
  fun _ _ _ hmem => absurd hmem List.not_mem_nil

theorem concerns_put_nil (hid : w.id = id) (hseat : (e.barrier.marks? id).isSome = true)
    (hworkers : e₁.workers = e.workers) (hseats : e.barrier.Seats e₁.barrier) :
    e.Concerns (some id) ([], e₁.put w) :=
  concerns_put hid hseat hworkers hseats fun _ _ _ hmem => absurd hmem List.not_mem_nil

section Boundary

theorem Leaving.seats {boundary : Except Fault Unit} {e' : Engine} (h : Leaving e w boundary e') :
    e.barrier.Seats e'.barrier := by
  cases h with
  | missing f _ => exact .refl _
  | untold b hleave => exact Barrier.seats_leave hleave
  | denied next b f hleave _ => exact Barrier.seats_leave hleave
  | switched next b store hleave _ => exact Barrier.seats_leave hleave

/-- A worker at its boundary keeps everyone's seat and ends no call but its own. -/
theorem passBoundary_seats (e : Engine) (w : Worker) (call : EndCall) (result : Except Fault Unit) :
    e.barrier.Seats (e.passBoundary w call result).2.barrier ∧
      ∀ c i r, .ended c i r ∈ (e.passBoundary w call result).1 → w.id = i := by
  have hinv := passBoundary_inv (Prod.eta (e.passBoundary w call result)).symm
  generalize e.passBoundary w call result = x at hinv
  obtain ⟨events, e'⟩ := x
  have hself : ∀ own, ∀ c i r, EngineEvent.ended c i r ∈ [EngineEvent.ended call w.id own] →
      w.id = i := by
    intro own c i r hmem
    cases List.mem_singleton.1 hmem
    rfl
  rcases hinv with ⟨f, -, rfl, rfl⟩ | ⟨b, henter, rfl, rfl⟩ | ⟨_, boundary, -, rfl, hleaving⟩
  · exact ⟨.refl _, hself _⟩
  · exact ⟨Barrier.seats_enter henter, fun _ _ _ hmem => absurd hmem List.not_mem_nil⟩
  · exact ⟨hleaving.seats, hself _⟩

/-- A worker that has a seat crosses its boundary. -/
theorem concerns_cross {events : List EngineEvent} {e' : Engine} (hid : w.id = id)
    (hseat : (e.barrier.marks? id).isSome = true) (hworkers : e₁.workers = e.workers)
    (hcrossed : e₁.Crossed w e') (hseats : e.barrier.Seats e'.barrier)
    (hevents : ∀ call i result, .ended call i result ∈ events → w.id = i) :
    e.Concerns (some id) (events, e') := by
  obtain ⟨barrier, levels, protocol, blocked, rfl, -⟩ := hcrossed
  exact concerns_put hid hseat hworkers hseats fun c i r hmem => hid ▸ hevents c i r hmem

theorem concerns_passBoundaryWhen (hid : w.id = id)
    (hseat : (e.barrier.marks? id).isSome = true) (hworkers : e₁.workers = e.workers)
    (hbarrier : e₁.barrier = e.barrier) (call : EndCall) (result : Except Fault Unit)
    (unavailable : Bool) :
    e.Concerns (some id) (e₁.passBoundaryWhen w call result unavailable) := by
  obtain ⟨hseats, hevents⟩ :=
    { e₁ with store := e₁.storeWhen unavailable }.passBoundary_seats w call result
  exact concerns_cross hid hseat hworkers (passBoundaryWhen_crossed e₁ w call result unavailable)
    (hbarrier ▸ hseats) hevents

theorem concerns_passBoundary (hid : w.id = id) (hseat : (e.barrier.marks? id).isSome = true)
    (hworkers : e₁.workers = e.workers) (hbarrier : e₁.barrier = e.barrier) (call : EndCall)
    (result : Except Fault Unit) : e.Concerns (some id) (e₁.passBoundary w call result) := by
  rw [← passBoundaryWhen_self]
  exact concerns_passBoundaryWhen hid hseat hworkers hbarrier call result _

end Boundary

section Calls

theorem concerns_of_ending {result own : Except Fault Unit} (h : Ending e w own e₁ w₁)
    (hid : w.id = id) (hseat : (e.barrier.marks? id).isSome = true) (unavailable : Bool) :
    e.Concerns (some id) (e₁.passBoundaryWhen w₁ .commit result unavailable) := by
  obtain ⟨hworkers, hbarrier, -, hid₁, -⟩ := h.leaves
  have hid₁ := hid₁.trans hid
  exact concerns_passBoundaryWhen hid₁ hseat hworkers hbarrier .commit result unavailable

theorem Commits.concerns (h : Commits e w x) (hid : w.id = id)
    (hseat : (e.barrier.marks? id).isSome = true) : e.Concerns (some id) x := by
  cases h with
  | ends result e₁ w₁ hending =>
      rw [← passBoundaryWhen_self]
      exact concerns_of_ending hending hid hseat _
  | waits guard locks counters _ _ =>
      exact concerns_put_nil hid hseat rfl (.refl _)

/-- Nothing happens. -/
theorem Seated.concerns_self (h : e.Seated) (who : Option Nat) : e.Concerns who ([], e) :=
  h.concerns_same who rfl (.refl _) fun _ _ _ => List.not_mem_nil

theorem Seated.concerns_start (h : e.Seated) (id : Nat) (call : EndCall) :
    e.Concerns (some id) (e.start id call) := by
  cases hw : e.worker? id with
  | none =>
      have hnone : e.start id call = ([.ended call id (.error (.workerClosed id))], e) := by
        simp only [start, hw]
      rw [hnone]
      refine ⟨fun _ _ => rfl, fun _ _ => rfl, ?_, fun i w' _ hw' => h i w' hw'⟩
      intro c i r hmem
      cases List.mem_singleton.1 hmem
      rfl
  | some w =>
      obtain ⟨hid, hseat⟩ := h id w hw
      cases call with
      | commit =>
          rw [start_commit hw]
          cases ht : w.current with
          | none =>
              have hidle : e.startCommit w = e.passBoundary w .commit (.ok ()) := by
                simp only [startCommit, ht]
              rw [hidle]
              exact concerns_passBoundary hid hseat rfl rfl .commit (.ok ())
          | some t => exact (startCommit_commits ht).concerns hid hseat
      | rollback =>
          rw [start_rollback hw]
          rcases startRollback_inv e w with ⟨-, hrollback⟩ | ⟨t, -, hrollback⟩
          · rw [hrollback]
            exact concerns_passBoundary hid hseat rfl rfl .rollback (.ok ())
          · rw [hrollback]
            refine concerns_passBoundary ?_ hseat ?_ ?_ .rollback _
            · exact hid
            · rfl
            · rfl

theorem Seated.concerns_resume (h : e.Seated) (id : Nat) :
    e.Concerns (some id) (e.resume id) := by
  rcases e.resume_inv id with ⟨w, call, result, hw, -, hresume⟩ | ⟨-, hresume⟩
  · obtain ⟨hid, hseat⟩ := h id w hw
    rw [hresume]
    have hinv := leave_inv (Prod.eta (e.leave w call result)).symm
    generalize e.leave w call result = x at hinv
    obtain ⟨events, e'⟩ := x
    obtain ⟨boundary, rfl, hleaving⟩ := hinv
    refine concerns_cross hid hseat rfl hleaving.crossed hleaving.seats ?_
    intro c i r hmem
    cases List.mem_singleton.1 hmem
    rfl
  · rw [hresume]
    exact h.concerns_self _

theorem Seated.concerns_openGate (h : e.Seated) (id : Nat) :
    e.Concerns (some id) (e.openGate id) := by
  simp only [openGate]
  split
  · exact h.concerns_self _
  · rename_i w hw
    obtain ⟨hid, hseat⟩ := h id w hw
    split
    · rename_i guard t _ ht
      have hcommits := comeToGate_commits e { w with link := w.link.openGate, blocked := none }
        e.locks e.counters rfl rfl t guard
      exact hcommits.concerns hid hseat
    · exact concerns_put_nil hid hseat rfl (.refl _)

theorem Seated.concerns_fail (h : e.Seated) (id : Nat) (calls : List StoreCall) :
    e.Concerns (some id) ([], e.fail id calls) := by
  simp only [fail]
  split
  · rename_i w hw
    obtain ⟨hid, hseat⟩ := h id w hw
    exact concerns_put_nil hid hseat rfl (.refl _)
  · exact h.concerns_self _

/-- A transaction that begins leaves the workers and the barrier. -/
theorem begun_barrier (e : Engine) (w : Worker) (template : Transaction) :
    (e.begun w template).barrier = e.barrier := by
  obtain ⟨counters, next, hbegun⟩ := begun_eq e w template
  rw [hbegun]

theorem Seated.concerns_execute (h : e.Seated) (id : Nat) (name : String) (index : Nat)
    (args : List Value) : e.Concerns (some id) ([], (e.execute id name index args).2) := by
  cases hw : e.worker? id with
  | none =>
      rw [execute_of_none hw]
      exact h.concerns_self _
  | some w =>
      obtain ⟨hid, hseat⟩ := h id w hw
      have hbegun : ∀ template, (e.begun w template).workers = e.workers ∧
          e.barrier.Seats (e.begun w template).barrier ∧ (e.beginner w template).id = id := by
        intro template
        obtain ⟨-, hworkers, hbeginner, -⟩ := begun_workers e w template
        rw [begun_barrier]
        exact ⟨hworkers, .refl _, hbeginner.trans hid⟩
      have hexecuted := execute_inv hw name index args
      generalize e.execute id name index args = x at hexecuted
      obtain ⟨answer, e'⟩ := x
      cases hexecuted with
      | refused f hready => exact h.concerns_self _
      | keyless q f hready hkey =>
          obtain ⟨hworkers, hseats, hbeginner⟩ := hbegun q.template
          exact concerns_put_nil hbeginner hseat hworkers hseats
      | lost q key f hready hkey hexec =>
          obtain ⟨hworkers, hseats, hbeginner⟩ := hbegun q.template
          rw [abandon_eq]
          refine concerns_put_nil ?_ hseat ?_ ?_
          · exact hbeginner
          · exact hworkers
          · exact hseats
      | answered q key outcome link hready hkey hexec =>
          obtain ⟨hworkers, hseats, hbeginner⟩ := hbegun q.template
          exact concerns_put_nil (w := { e.beginner w q.template with link, current := _ })
            hbeginner hseat hworkers hseats

/-- Only a worker that has no seat can be connected. -/
theorem Seated.concerns_connect (h : e.Seated) (id : Nat) (permits : Option Nat) :
    e.Concerns (some id) ([], (e.connect id [] permits).2) := by
  have hconnecting := e.connecting_connect id permits
  generalize (e.connect id [] permits).2 = e' at hconnecting
  have hseat : ∀ {start : Protocol} {barrier : Barrier},
      e.barrier.register id = .ok (start, barrier) → ∃ m, barrier = e.barrier.mark id m := by
    intro start barrier hregister
    rcases Barrier.register_eq_ok hregister with ⟨-, -, hb⟩ | ⟨-, -, hb⟩
    · exact ⟨_, hb⟩
    · exact ⟨_, hb⟩
  have hothers : ∀ (m : SwitchMarks) i, some id ≠ some i →
      ((e.barrier.mark id m).marks? i).isSome = (e.barrier.marks? i).isSome := by
    intro m i hi
    have hne : i ≠ id := fun he => hi (congrArg some he.symm)
    rw [Barrier.marks?_mark, if_neg hne]
  cases hconnecting with
  | refused f _ => exact h.concerns_same _ rfl (.refl _) fun _ _ _ => List.not_mem_nil
  | denied start barrier hregister =>
      obtain ⟨m, rfl⟩ := hseat hregister
      have hnew : e.worker? id = none := by
        cases hw : e.worker? id with
        | none => rfl
        | some w =>
            rw [Barrier.register, if_pos (h id w hw).2] at hregister
            cases hregister
      refine ⟨fun _ _ => rfl, fun i hi => ?_, not_ended, fun i w hi hw => ?_⟩
      · have hne : i ≠ id := fun he => hi (congrArg some he.symm)
        rw [Barrier.marks?_deregister, if_neg hne]
        exact hothers m i hi
      · rw [← Option.some.inj hi] at hw
        cases hnew.symm.trans hw
  | joined start barrier levels hregister =>
      obtain ⟨m, rfl⟩ := hseat hregister
      refine ⟨fun i hi => ?_, hothers m, not_ended, fun i w hi hw => ?_⟩
      · have hne : i ≠ id := fun he => hi (congrArg some he.symm)
        rw [worker?_put, if_neg hne]
        rfl
      · obtain rfl := Option.some.inj hi
        rw [worker?_put, if_pos rfl, Option.some.injEq] at hw
        refine ⟨hw ▸ rfl, ?_⟩
        change ((e.barrier.mark id m).marks? id).isSome = true
        rw [Barrier.marks?_mark, if_pos rfl]
        rfl

theorem Seated.concerns_close (h : e.Seated) (id : Nat) :
    e.Concerns (some id) ([], (e.close id).2) := by
  obtain ⟨-, hclose⟩ | ⟨w, -, hclose⟩ := e.close_inv id
  · rw [hclose]
    exact h.concerns_self _
  · rw [hclose]
    refine ⟨fun i hi => ?_, fun i hi => ?_, not_ended, fun i x hi hx => ?_⟩
    · have hne : i ≠ id := fun he => hi (congrArg some he.symm)
      rw [worker?_without, if_neg hne]
    · have hne : i ≠ id := fun he => hi (congrArg some he.symm)
      exact congrArg Option.isSome ((Barrier.marks?_deregister ..).trans (if_neg hne))
    · rw [← Option.some.inj hi, worker?_without, if_pos rfl] at hx
      cases hx

theorem Seated.concerns_startCommitDuring (h : e.Seated) (hw : e.worker? id = some w)
    (down : Nat → Bool) (downAtBoundary : Bool) :
    e.Concerns (some id) (e.startCommitDuring w down downAtBoundary) := by
  obtain ⟨hid, hseat⟩ := h id w hw
  rcases e.startCommitDuring_cases w down downAtBoundary with
    ⟨-, hstarted⟩ | ⟨t, result, e₁, w₁, -, hcommit, hstarted⟩
  · rw [hstarted]
    exact concerns_passBoundaryWhen hid hseat rfl rfl .commit (.ok ()) downAtBoundary
  · rw [hstarted]
    exact concerns_of_ending (commitDuring_ends e w t down hcommit) hid hseat downAtBoundary

end Calls

end Engine

/-- The worker whose turn it is. -/
def Turn.worker? : Turn → Option Nat
  | .commit id _ _ => some id
  | .plain (.connectGated id _) => some id
  | .plain (.openGate id) => some id
  | .plain (.action (.connect id)) => some id
  | .plain (.action (.execute id ..)) => some id
  | .plain (.action (.finish id _)) => some id
  | .plain (.action (.close id)) => some id
  | .plain (.action (.fail id _)) => some id
  | .plain (.action (.resume id)) => some id
  | _ => none

namespace Engine

variable {e : Engine} {w : Worker} {id : Nat}

theorem Seated.concerns_turn (h : e.Seated) (turn : Turn) :
    e.Concerns turn.worker? (e.turn turn) := by
  have hsilent : ∀ call i result, EngineEvent.ended call i result ∉ [] := fun _ _ _ =>
    List.not_mem_nil
  cases turn with
  | commit id down downAtBoundary =>
      rcases e.turn_commit_cases id down downAtBoundary with
        ⟨-, hturn⟩ | ⟨w, hw, -, -, hturn⟩
      · rw [hturn]
        exact h.concerns_self _
      · rw [hturn]
        exact h.concerns_startCommitDuring hw down downAtBoundary
  | plain happening =>
      cases happening with
      | connectGated id permits => exact h.concerns_connect id (some permits)
      | openGate id => exact h.concerns_openGate id
      | lockCall c => exact h.concerns_same _ rfl (.refl _) hsilent
      | action a =>
          simp only [Engine.turn, occur]
          cases a with
          | connect id => exact h.concerns_connect id none
          | execute id name index args =>
              simp only [take, Turn.worker?]
              split
              · exact h.concerns_self _
              · exact h.concerns_execute id name index args
          | finish id call =>
              simp only [take, Turn.worker?]
              split
              · exact h.concerns_self _
              · exact h.concerns_start id call
          | close id =>
              simp only [take, Turn.worker?]
              split
              · exact h.concerns_self _
              · exact h.concerns_close id
          | request target => exact h.concerns_same _ rfl (.refl _) hsilent
          | seed place value => exact h.concerns_same _ rfl (.refl _) hsilent
          | outage on => exact h.concerns_same _ rfl (.refl _) hsilent
          | fail id calls => exact h.concerns_fail id calls
          | beginRequest =>
              simp only [take, Turn.worker?]
              split
              · rename_i report barrier hbegin
                refine h.concerns_same _ rfl (Barrier.seats_begin? hbegin) ?_
                simp
              · exact h.concerns_self _
          | advance =>
              simp only [take, Turn.worker?]
              split
              · rename_i report barrier hadvance
                refine h.concerns_same _ rfl (Barrier.seats_advance? hadvance) ?_
                simp
              · exact h.concerns_self _
          | resume id =>
              simp only [take, Turn.worker?]
              split
              · rw [resume_withStopped]
                have hresumed := h.concerns_resume id
                exact ⟨hresumed.workers, hresumed.seats, hresumed.ended, hresumed.seated⟩
              · exact h.concerns_self _

theorem Seated.turn (h : e.Seated) (turn : Turn) : (e.turn turn).2.Seated :=
  h.concerned (h.concerns_turn turn)

theorem Seated.through (h : e.Seated) (turns : List Turn) : (e.through turns).Seated :=
  through_induction (fun turn _ _ h => h.turn turn) h

theorem seated_create {workload : Workload} {config : EngineConfig} {keys : KeyRule}
    (h : create workload config keys = .ok e) : e.Seated := by
  obtain ⟨protocol, locks, -, -, rfl⟩ := create_eq_ok h
  intro id w hw
  cases hw

/-- What a turn means for a worker whose call is held up. It stays as it is, though its link may be
told to fail other calls or given a permit, or it is let on. -/
inductive Waits (e : Engine) (id : Nat) (w : Worker) : Turn → List EngineEvent × Engine → Prop where
  | aside (turn : Turn) (x : List EngineEvent × Engine) (link : Link)
    (hw : x.2.worker? id = some { w with link }) (hlink : link.connection = w.link.connection)
    (hended : ∀ call result, .ended call id result ∉ x.1) : Waits e id w turn x
  | opened (guard : Option Guard) (t : OpenTransaction)
    (hblocked : w.blocked = some (.atGate guard)) (ht : w.current = some t) :
    Waits e id w (.plain (.openGate id))
      (e.comeToGate { w with link := w.link.openGate, blocked := none } t guard)
  | resumed (call : EndCall) (result : Except Fault Unit)
    (hblocked : w.blocked = some (.atBoundary call result)) :
    Waits e id w (.plain (.action (.resume id)))
      ((e.withStopped (e.barrier.stopped.erase id)).leave w call result)

/-- A worker that is connected already cannot be connected again. -/
theorem Seated.connect_again (h : e.Seated) (hw : e.worker? id = some w) (permits : Option Nat) :
    (e.connect id [] permits).2.worker? id = some w := by
  have hregister : e.barrier.register id = .error (.workerExists id) := by
    rw [Barrier.register, if_pos (h id w hw).2]
  simp only [Engine.connect, hregister]
  exact hw

theorem Seated.turn_waits (h : e.Seated) (hw : e.worker? id = some w)
    (hblocked : w.blocked.isSome = true) (turn : Turn) : e.Waits id w turn (e.turn turn) := by
  have haside : ∀ turn (e' : Engine) link, e'.worker? id = some { w with link } →
      link.connection = w.link.connection → e.Waits id w turn ([], e') :=
    fun turn _ link hw' hlink => .aside turn _ link hw' hlink fun _ _ => List.not_mem_nil
  have hself : ∀ turn, e.Waits id w turn ([], e) := fun turn => haside turn e w.link hw rfl
  have hbusy : e.busy id = true := by simp [busy, hw, hblocked]
  have hid : id = w.id := (h id w hw).1.symm
  by_cases hturn : turn.worker? = some id
  · cases turn with
    | commit i down downAtBoundary =>
        obtain rfl := Option.some.inj hturn
        simpa [Engine.turn, hw, hblocked] using hself (.commit i down downAtBoundary)
    | plain happening =>
        cases happening with
        | lockCall c => cases hturn
        | connectGated i permits =>
            obtain rfl := Option.some.inj hturn
            exact haside _ _ w.link (h.connect_again hw (some permits)) rfl
        | openGate i =>
            obtain rfl := Option.some.inj hturn
            simp only [Engine.turn, occur, openGate, hw]
            split
            · rename_i guard t hgate ht
              exact .opened guard t hgate ht
            · exact haside _ _ w.link.openGate (by rw [worker?_put, if_pos hid]) rfl
        | action a =>
            simp only [Engine.turn, occur]
            cases a with
            | connect i =>
                obtain rfl := Option.some.inj hturn
                exact haside _ _ w.link (h.connect_again hw none) rfl
            | execute i name index args =>
                obtain rfl := Option.some.inj hturn
                rw [take_execute_of_busy hbusy]
                exact hself _
            | finish i call =>
                obtain rfl := Option.some.inj hturn
                simpa only [take, hbusy, if_true] using hself (.plain (.action (.finish i call)))
            | close i =>
                obtain rfl := Option.some.inj hturn
                simpa only [take, hbusy, if_true] using hself (.plain (.action (.close i)))
            | fail i calls =>
                obtain rfl := Option.some.inj hturn
                simp only [take, fail, hw]
                exact haside _ _ { w.link with failing := calls.filter (· != .rollback) }
                  (by rw [worker?_put, if_pos hid]) rfl
            | resume i =>
                obtain rfl := Option.some.inj hturn
                simp only [take]
                split
                · have hw' : (e.withStopped (e.barrier.stopped.erase i)).worker? i = some w := hw
                  simp only [resume, hw']
                  split
                  · rename_i call result hstopped
                    exact .resumed call result hstopped
                  · exact haside _ _ w.link hw' rfl
                · exact hself _
            | request | seed | outage | beginRequest | advance => cases hturn
  · have hconcerns := h.concerns_turn turn
    refine .aside turn _ w.link ?_ rfl fun call result hmem => ?_
    · rw [hconcerns.workers id hturn, hw]
    · exact hturn (hconcerns.ended call id result hmem)

end Engine

end LiveIsolation
