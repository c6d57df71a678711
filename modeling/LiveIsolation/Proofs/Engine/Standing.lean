import LiveIsolation.Proofs.Engine.Seats
import LiveIsolation.Proofs.Engine.Switched

/-!
# Where the workers are

To a switch a worker is away, or no call of it is held up, or its commit is held up at the gate of
its link, or it is stopped at its boundary (`Standing`). A turn moves one worker at most, and what
it makes of the barrier goes with the move (`Engine.Alters`).
-/

namespace LiveIsolation

/-- Where a worker is. -/
inductive Standing where
  /-- It is not connected. -/
  | away
  /-- No call of it is held up. -/
  | free
  | atGate
  | atBoundary
  deriving DecidableEq, Repr

def Worker.standing (w : Worker) : Standing :=
  match w.blocked with
  | none => .free
  | some (.atGate _) => .atGate
  | some (.atBoundary ..) => .atBoundary

namespace Engine

def standing (e : Engine) (id : Nat) : Standing := (e.worker? id).elim .away Worker.standing

/-- The worker that makes a call by a turn which ends its transaction. -/
def caller? (e : Engine) : Turn → Option Nat
  | .plain (.action (.finish id _)) => if e.standing id = .free then some id else none
  | .commit id _ _ =>
    if e.standing id = .free ∧ (e.worker? id).any (·.link.permits.isNone) then some id else none
  | _ => none

/-- The worker that is closed by a turn. -/
def closer? (e : Engine) : Turn → Option Nat
  | .plain (.action (.close id)) => if e.standing id = .free then some id else none
  | _ => none

end Engine

namespace Barrier

variable {b c : Barrier} {id : Nat}

/-- A worker that has a seat comes to its boundary: it is stopped there, or passes. -/
inductive Passes (b : Barrier) (id : Nat) : Barrier → Standing → Prop where
  | stops (c : Barrier) (henter : b.enter id = .ok (none, c)) : Passes b id c .atBoundary
  | leaves (required : Protocol) (henter : b.enter id = .ok (some required, b))
    (told : Option Protocol) (c : Barrier) (hleave : b.leave id = .ok (told, c)) :
    Passes b id c .free

theorem enter_of_seat (hseat : (b.marks? id).isSome = true) (f : Fault) :
    b.enter id ≠ .error f := by
  obtain ⟨m, hm⟩ := Option.isSome_iff_exists.1 hseat
  simp only [enter, hm]
  split
  · simp
  · simp

theorem leave_of_seat (hseat : (b.marks? id).isSome = true) (f : Fault) :
    b.leave id ≠ .error f := by
  obtain ⟨m, hm⟩ := Option.isSome_iff_exists.1 hseat
  simp only [leave, hm]
  split
  · simp
  · simp

end Barrier

namespace Engine

variable {e e' e₁ : Engine} {w w₁ : Worker} {id : Nat} {turn : Turn}

theorem standing_of_worker? (hw : e.worker? id = some w) : e.standing id = w.standing := by
  rw [standing, hw, Option.elim_some]

theorem standing_of_none (hw : e.worker? id = none) : e.standing id = .away := by
  rw [standing, hw, Option.elim_none]

theorem standing_put (e : Engine) (w : Worker) :
    (e.put w).standing = Function.update e.standing w.id w.standing := by
  funext i
  rw [standing, worker?_put, Function.update_apply]
  split
  · rfl
  · rfl

theorem standing_congr (h : e'.workers = e.workers) : e'.standing = e.standing := by
  funext i
  rw [standing, worker?, h]
  rfl

/-- A worker is exchanged for one that is held up in the same way. -/
theorem standing_put_same (hw : e.worker? id = some w) (w₁ : Worker)
    (hworkers : e₁.workers = e.workers) (hid : w₁.id = id) (hsame : w₁.standing = w.standing) :
    (e₁.put w₁).standing = e.standing := by
  rw [standing_put, standing_congr hworkers, hid, hsame, ← standing_of_worker? hw]
  exact Function.update_eq_self id e.standing

theorem standing_of_blocked (h : w.blocked = none) : w.standing = .free := by
  rw [Worker.standing, h]

theorem standing_eq_free (hw : e.worker? id = some w) (hidle : e.busy id = false) :
    e.standing id = .free := by
  have hblocked : w.blocked = none := by simpa [busy, hw] using hidle
  rw [standing_of_worker? hw, standing_of_blocked hblocked]

theorem standing_of_busy (hbusy : e.busy id = true) :
    e.standing id = .atGate ∨ e.standing id = .atBoundary := by
  simp only [busy, Option.any_eq_true] at hbusy
  obtain ⟨w, hw, hblocked⟩ := hbusy
  obtain ⟨x, hx⟩ := Option.isSome_iff_exists.1 hblocked
  rw [standing_of_worker? hw, Worker.standing, hx]
  cases x with
  | atGate guard => exact .inl rfl
  | atBoundary call result => exact .inr rfl

theorem standing_ne_free (hbusy : e.busy id = true) : e.standing id ≠ .free := by
  rcases standing_of_busy hbusy with h | h
  · simp [h]
  · simp [h]

/-- What a turn makes of the barrier, and where the workers are after it. -/
inductive Alters (e : Engine) : Turn → Barrier → (Nat → Standing) → Prop where
  | aside (turn : Turn) (hcaller : e.caller? turn = none) (hcloser : e.closer? turn = none) :
    Alters e turn e.barrier e.standing
  /-- A commit is held up at the gate, or still is. -/
  | held (turn : Turn) (id : Nat) (hfrom : e.standing id = .free ∨ e.standing id = .atGate)
    (hcaller : ∀ i, e.caller? turn = some i → i = id) (hcloser : e.closer? turn = none) :
    Alters e turn e.barrier (Function.update e.standing id .atGate)
  /-- The transaction of a worker has ended, and the worker comes to its boundary. -/
  | passes (turn : Turn) (id : Nat) (hfrom : e.standing id = .free ∨ e.standing id = .atGate)
    (hcaller : ∀ i, e.caller? turn = some i → i = id) (hcloser : e.closer? turn = none)
    (b : Barrier) (s : Standing) (hpasses : e.barrier.Passes id b s) :
    Alters e turn b (Function.update e.standing id s)
  | resumes (id : Nat) (hstopped : id ∈ e.barrier.stopped)
    (hphase : e.barrier.phase ≠ .awaitingReady) (told : Option Protocol) (b : Barrier)
    (hleave : Barrier.leave { e.barrier with stopped := e.barrier.stopped.erase id } id =
      .ok (told, b)) :
    Alters e (.plain (.action (.resume id))) b (Function.update e.standing id .free)
  | joins (turn : Turn) (id : Nat) (hcaller : e.caller? turn = none)
    (hcloser : e.closer? turn = none) (start : Protocol) (b : Barrier)
    (hregister : e.barrier.register id = .ok (start, b)) :
    Alters e turn b (Function.update e.standing id .free)
  /-- A worker has joined, and leaves again since the store refuses its level. -/
  | turnedAway (turn : Turn) (id : Nat) (hcaller : e.caller? turn = none)
    (hcloser : e.closer? turn = none) (start : Protocol) (b : Barrier)
    (hregister : e.barrier.register id = .ok (start, b)) :
    Alters e turn (b.deregister id) e.standing
  | closes (id : Nat) (hfree : e.standing id = .free) :
    Alters e (.plain (.action (.close id))) (e.barrier.deregister id)
      (Function.update e.standing id .away)
  | requests (target : Protocol) :
    Alters e (.plain (.action (.request target))) (e.barrier.request target) e.standing
  | begins (report : Option SwitchReport) (b : Barrier)
    (hbegin : e.barrier.begin? = some (report, b)) :
    Alters e (.plain (.action .beginRequest)) b e.standing
  | advances (report : Option SwitchReport) (b : Barrier)
    (hadvance : e.barrier.advance? = some (report, b)) :
    Alters e (.plain (.action .advance)) b e.standing

theorem blocked_beginner (e : Engine) (w : Worker) (template : Transaction) :
    (e.beginner w template).blocked = w.blocked := by
  obtain ⟨-, -, hbeginner⟩ | ⟨-, -, -, hbeginner⟩ := opened_eq e w template
  · rw [hbeginner]
  · rw [hbeginner]

section Boundary

/-- A worker that has a seat leaves its boundary. -/
theorem Leaving.standing {boundary : Except Fault Unit} (h : Leaving e w boundary e')
    (hseat : (e.barrier.marks? w.id).isSome = true) :
    ∃ told, e.barrier.leave w.id = .ok (told, e'.barrier) ∧
      e'.standing = Function.update e.standing w.id .free := by
  cases h with
  | missing f hleave => exact absurd hleave (Barrier.leave_of_seat hseat f)
  | untold b hleave => exact ⟨none, hleave, standing_put _ _⟩
  | denied next b f hleave _ => exact ⟨some next, hleave, standing_put _ _⟩
  | switched next b store hleave _ => exact ⟨some next, hleave, standing_put _ _⟩

/-- A worker that has a seat comes to its boundary. -/
theorem passBoundaryWhen_standing (hid : w.id = id)
    (hseat : (e.barrier.marks? id).isSome = true) (call : EndCall) (result : Except Fault Unit)
    (unavailable : Bool) :
    ∃ s, e.barrier.Passes id (e.passBoundaryWhen w call result unavailable).2.barrier s ∧
      (e.passBoundaryWhen w call result unavailable).2.standing =
        Function.update e.standing id s := by
  subst hid
  have hinv := passBoundary_inv
    (Prod.eta ({ e with store := e.storeWhen unavailable }.passBoundary w call result)).symm
  simp only [passBoundaryWhen]
  generalize { e with store := e.storeWhen unavailable }.passBoundary w call result = x at hinv
  obtain ⟨events, e'⟩ := x
  rcases hinv with ⟨f, henter, -, -⟩ | ⟨b, henter, -, rfl⟩ | ⟨required, boundary, henter, -, hl⟩
  · exact absurd henter (Barrier.enter_of_seat hseat f)
  · exact ⟨.atBoundary, .stops b henter, standing_put _ _⟩
  · obtain ⟨told, hleave, hstanding⟩ := hl.standing hseat
    exact ⟨.free, .leaves required henter told _ hleave, hstanding⟩

end Boundary

section Calls
variable (hid : w.id = id) (hseat : (e.barrier.marks? id).isSome = true)
  (hfrom : e.standing id = .free ∨ e.standing id = .atGate)
  (hcaller : ∀ i, e.caller? turn = some i → i = id) (hcloser : e.closer? turn = none)
include hseat hfrom hcaller hcloser

/-- A worker whose call has come so far without the barrier comes to its boundary. -/
theorem alters_passBoundaryWhen (hid : w₁.id = id) (hworkers : e₁.workers = e.workers)
    (hbarrier : e₁.barrier = e.barrier) (call : EndCall) (result : Except Fault Unit)
    (unavailable : Bool) :
    e.Alters turn (e₁.passBoundaryWhen w₁ call result unavailable).2.barrier
      (e₁.passBoundaryWhen w₁ call result unavailable).2.standing := by
  obtain ⟨s, hpasses, hstanding⟩ :=
    passBoundaryWhen_standing hid (hbarrier ▸ hseat) call result unavailable
  rw [hstanding, standing_congr hworkers]
  exact .passes turn id hfrom hcaller hcloser _ s (hbarrier ▸ hpasses)

theorem alters_passBoundary (hid : w₁.id = id) (hworkers : e₁.workers = e.workers)
    (hbarrier : e₁.barrier = e.barrier) (call : EndCall) (result : Except Fault Unit) :
    e.Alters turn (e₁.passBoundary w₁ call result).2.barrier
      (e₁.passBoundary w₁ call result).2.standing := by
  rw [← passBoundaryWhen_self]
  exact alters_passBoundaryWhen hseat hfrom hcaller hcloser hid hworkers hbarrier call result _

include hid

theorem Ending.alters {result own : Except Fault Unit} (h : Ending e w own e₁ w₁)
    (unavailable : Bool) :
    e.Alters turn (e₁.passBoundaryWhen w₁ .commit result unavailable).2.barrier
      (e₁.passBoundaryWhen w₁ .commit result unavailable).2.standing := by
  obtain ⟨hworkers, hbarrier, -, hid₁, -⟩ := h.leaves
  exact alters_passBoundaryWhen hseat hfrom hcaller hcloser (hid₁.trans hid) hworkers hbarrier
    .commit result unavailable

theorem Commits.alters {x : List EngineEvent × Engine} (h : Commits e w x) :
    e.Alters turn x.2.barrier x.2.standing := by
  cases h with
  | ends result e₁ w₁ hending =>
      rw [← passBoundaryWhen_self]
      exact hending.alters hid hseat hfrom hcaller hcloser _
  | waits guard locks counters _ _ =>
      have hstanding : ({ e with locks, counters }.put
          { w with blocked := some (.atGate guard) }).standing =
            Function.update e.standing id .atGate := by
        rw [standing_put]
        exact hid ▸ rfl
      rw [hstanding]
      exact .held turn id hfrom hcaller hcloser

end Calls

section Turns

theorem alters_connect (hcaller : e.caller? turn = none) (hcloser : e.closer? turn = none)
    (id : Nat) (permits : Option Nat) :
    e.Alters turn (e.connect id [] permits).2.barrier (e.connect id [] permits).2.standing := by
  have hconnecting := e.connecting_connect id permits
  generalize (e.connect id [] permits).2 = e' at hconnecting
  cases hconnecting with
  | refused f _ => exact .aside turn hcaller hcloser
  | denied start b hregister => exact .turnedAway turn id hcaller hcloser start b hregister
  | joined start b levels hregister =>
      rw [standing_put]
      exact .joins turn id hcaller hcloser start b hregister

theorem alters_close (hfree : e.busy id = false) :
    e.Alters (.plain (.action (.close id))) (e.close id).2.barrier (e.close id).2.standing := by
  obtain ⟨hw, hclose⟩ | ⟨w, hw, hclose⟩ := e.close_inv id
  · rw [hclose]
    refine .aside _ rfl ?_
    simp only [closer?, standing_of_none hw]
    rfl
  · rw [hclose]
    have hstanding : ∀ counters,
        (e.without id counters).standing = Function.update e.standing id .away := by
      intro counters
      funext i
      rw [standing, worker?_without, Function.update_apply]
      split
      · rfl
      · rfl
    rw [hstanding]
    exact .closes id (standing_eq_free hw hfree)

section Seated
variable (h : e.Seated)
include h

theorem Seated.alters_openGate (id : Nat) :
    e.Alters (.plain (.openGate id)) (e.openGate id).2.barrier (e.openGate id).2.standing := by
  simp only [openGate]
  split
  · exact .aside _ rfl rfl
  · rename_i w hw
    obtain ⟨hid, hseat⟩ := h id w hw
    split
    · rename_i guard t hblocked ht
      have hgate : e.standing id = .atGate := by
        rw [standing_of_worker? hw, Worker.standing, hblocked]
      have hcommits := comeToGate_commits e { w with link := w.link.openGate, blocked := none }
        e.locks e.counters rfl rfl t guard
      refine hcommits.alters ?_ hseat (.inr hgate) ?_ rfl
      · exact hid
      · intro i hi
        cases hi
    · rw [standing_put_same hw { w with link := w.link.openGate } rfl hid rfl]
      exact .aside _ rfl rfl

theorem Seated.alters_execute (hcaller : e.caller? turn = none) (hcloser : e.closer? turn = none)
    (hfree : e.busy id = false) (name : String) (index : Nat) (args : List Value) :
    e.Alters turn (e.execute id name index args).2.barrier
      (e.execute id name index args).2.standing := by
  cases hw : e.worker? id with
  | none =>
      rw [execute_of_none hw]
      exact .aside turn hcaller hcloser
  | some w =>
      have hblocked : w.blocked = none := by simpa [busy, hw] using hfree
      have haside : ∀ template (e₁ : Engine) (w₁ : Worker),
          e₁.workers = (e.begun w template).workers → e₁.barrier = (e.begun w template).barrier →
          w₁.id = (e.beginner w template).id → w₁.blocked = (e.beginner w template).blocked →
            e.Alters turn (e₁.put w₁).barrier (e₁.put w₁).standing := by
        intro template e₁ w₁ hworkers hbarrier hid hblocked₁
        obtain ⟨-, hsame, hbeginner, -⟩ := begun_workers e w template
        have hfree₁ : w₁.standing = w.standing := by
          rw [Worker.standing, Worker.standing, hblocked₁, blocked_beginner]
        rw [standing_put_same hw w₁ (hworkers.trans hsame)
          ((hid.trans hbeginner).trans (h id w hw).1) hfree₁]
        have hkept : (e₁.put w₁).barrier = e.barrier := hbarrier.trans (begun_barrier e w template)
        rw [hkept]
        exact .aside turn hcaller hcloser
      have hexecuted := execute_inv hw name index args
      generalize e.execute id name index args = x at hexecuted
      obtain ⟨answer, e'⟩ := x
      cases hexecuted with
      | refused f hready => exact .aside turn hcaller hcloser
      | keyless q f hready hkey => exact haside q.template _ _ rfl rfl rfl rfl
      | lost q key f hready hkey hexec =>
          rw [abandon_eq]
          exact haside q.template _ _ rfl rfl rfl rfl
      | answered q key outcome link hready hkey hexec =>
          exact haside q.template _ { e.beginner w q.template with link, current := _ } rfl rfl
            rfl rfl

theorem Seated.alters_finish (call : EndCall) (hfree : e.busy id = false) :
    e.Alters (.plain (.action (.finish id call))) (e.start id call).2.barrier
      (e.start id call).2.standing := by
  cases hw : e.worker? id with
  | none =>
      rw [start_of_none hw]
      refine .aside _ ?_ rfl
      simp only [caller?, standing_of_none hw]
      rfl
  | some w =>
      obtain ⟨hid, hseat⟩ := h id w hw
      have hfrom : e.standing id = .free := standing_eq_free hw hfree
      have hcaller : ∀ i, e.caller? (.plain (.action (.finish id call))) = some i → i = id := by
        intro i hi
        simp only [caller?, hfrom, if_true, Option.some.injEq] at hi
        exact hi.symm
      cases call with
      | commit =>
          rw [start_commit hw]
          cases ht : w.current with
          | none =>
              have hidle : e.startCommit w = e.passBoundary w .commit (.ok ()) := by
                simp only [startCommit, ht]
              rw [hidle]
              exact alters_passBoundary hseat (.inl hfrom) hcaller rfl hid rfl rfl _ _
          | some t =>
              exact (startCommit_commits ht).alters hid hseat (.inl hfrom) hcaller rfl
      | rollback =>
          rw [start_rollback hw]
          rcases startRollback_inv e w with ⟨-, hrollback⟩ | ⟨t, -, hrollback⟩
          · rw [hrollback]
            exact alters_passBoundary hseat (.inl hfrom) hcaller rfl hid rfl rfl _ _
          · rw [hrollback]
            refine alters_passBoundary hseat (.inl hfrom) hcaller rfl ?_ ?_ ?_ .rollback _
            · exact hid
            · rfl
            · rfl

/-- A worker that is stopped goes on. -/
theorem Seated.resume_standing (hboundary : e.standing id = .atBoundary) (ids : List Nat) :
    ∃ told, Barrier.leave { e.barrier with stopped := ids } id =
        .ok (told, ((e.withStopped ids).resume id).2.barrier) ∧
      ((e.withStopped ids).resume id).2.standing = Function.update e.standing id .free := by
  rcases (e.withStopped ids).resume_inv id with ⟨w, call, result, hw, -, hresume⟩ | ⟨hnone, -⟩
  · have hworker : e.worker? id = some w := hw
    obtain ⟨rfl, hseat⟩ := h id w hworker
    obtain ⟨boundary, -, hleaving⟩ := leave_inv
      (Prod.eta ((e.withStopped ids).leave w call result)).symm
    rw [hresume]
    exact hleaving.standing hseat
  · refine absurd ?_ hnone
    cases hw : e.worker? id with
    | none =>
        rw [standing_of_none hw] at hboundary
        cases hboundary
    | some w =>
        rw [standing_of_worker? hw, Worker.standing] at hboundary
        split at hboundary
        · cases hboundary
        · cases hboundary
        · rename_i call result hblocked
          exact ⟨w, call, result, hw, hblocked⟩

theorem Seated.alters_commit (id : Nat) (down : Nat → Bool) (downAtBoundary : Bool) :
    e.Alters (.commit id down downAtBoundary)
      (e.turn (.commit id down downAtBoundary)).2.barrier
      (e.turn (.commit id down downAtBoundary)).2.standing := by
  rcases e.turn_commit_cases id down downAtBoundary with
    ⟨hidle, hturn⟩ | ⟨w, hw, hfree, -, hturn⟩
  · rw [hturn]
    refine .aside _ ?_ rfl
    rw [caller?, if_neg]
    rintro ⟨hfrom, hgate⟩
    obtain ⟨w, hw, hpermits⟩ := (Option.any_eq_true _ _).1 hgate
    rcases hidle w hw with hblocked | hgated
    · have hbusy : e.busy id = true := by
        simp only [busy, hw, Option.any_some, Option.isSome_iff_ne_none.2 hblocked]
      exact standing_ne_free hbusy hfrom
    · exact hgated (Option.isNone_iff_eq_none.1 hpermits)
  · rw [hturn]
    obtain ⟨hid, hseat⟩ := h id w hw
    have hfrom : e.standing id = .free := by
      rw [standing_of_worker? hw, standing_of_blocked hfree]
    have hcaller : ∀ i, e.caller? (.commit id down downAtBoundary) = some i → i = id := by
      intro i hi
      rw [caller?] at hi
      split at hi
      · exact (Option.some.inj hi).symm
      · cases hi
    rcases e.startCommitDuring_cases w down downAtBoundary with
      ⟨-, hstarted⟩ | ⟨t, result, e₁, w₁, -, hcommit, hstarted⟩
    · rw [hstarted]
      exact alters_passBoundaryWhen hseat (.inl hfrom) hcaller rfl hid rfl rfl _ _ _
    · rw [hstarted]
      exact (commitDuring_ends e w t down hcommit).alters hid hseat (.inl hfrom) hcaller rfl _

/-- What a turn makes of the barrier, and where the workers are after it. -/
theorem Seated.alters (hstopped : ∀ id ∈ e.barrier.stopped, e.standing id = .atBoundary)
    (turn : Turn) : e.Alters turn (e.turn turn).2.barrier (e.turn turn).2.standing := by
  cases turn with
  | commit id down downAtBoundary => exact h.alters_commit id down downAtBoundary
  | plain happening =>
      cases happening with
      | connectGated id permits => exact alters_connect rfl rfl id (some permits)
      | openGate id => exact h.alters_openGate id
      | lockCall c => exact .aside _ rfl rfl
      | action a =>
          simp only [Engine.turn, occur]
          cases a with
          | connect id => exact alters_connect rfl rfl id none
          | execute id name index args =>
              simp only [take]
              split
              · exact .aside _ rfl rfl
              · rename_i hidle
                exact h.alters_execute rfl rfl (Bool.not_eq_true _ ▸ hidle) name index args
          | finish id call =>
              simp only [take]
              split
              · rename_i hbusy
                refine .aside _ ?_ rfl
                simp only [caller?, if_neg (standing_ne_free hbusy)]
              · rename_i hidle
                exact h.alters_finish call (Bool.not_eq_true _ ▸ hidle)
          | close id =>
              simp only [take]
              split
              · rename_i hbusy
                refine .aside _ rfl ?_
                simp only [closer?, if_neg (standing_ne_free hbusy)]
              · rename_i hidle
                exact alters_close (Bool.not_eq_true _ ▸ hidle)
          | request target => exact .requests target
          | seed place value => exact .aside _ rfl rfl
          | outage on => exact .aside _ rfl rfl
          | fail id calls =>
              simp only [take, fail]
              split
              · rename_i w hw
                rw [standing_put_same hw
                  { w with link.failing := calls.filter (· != .rollback) } rfl (h id w hw).1 rfl]
                exact .aside _ rfl rfl
              · exact .aside _ rfl rfl
          | beginRequest =>
              simp only [take]
              split
              · rename_i report b hbegin
                exact .begins report b hbegin
              · exact .aside _ rfl rfl
          | advance =>
              simp only [take]
              split
              · rename_i report b hadvance
                exact .advances report b hadvance
              · exact .aside _ rfl rfl
          | resume id =>
              simp only [take]
              split
              · rename_i hresumed
                obtain ⟨told, hleave, hstanding⟩ := h.resume_standing
                  (hstopped id hresumed.1) (e.barrier.stopped.erase id)
                rw [hstanding]
                exact .resumes id hresumed.1 hresumed.2 told _ hleave
              · exact .aside _ rfl rfl

end Seated

end Turns

end Engine

end LiveIsolation
