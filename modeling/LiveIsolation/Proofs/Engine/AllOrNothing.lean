import LiveIsolation.Proofs.Engine.Serial
import LiveIsolation.Proofs.Engine.Steady

/-!
# Commits are all or nothing

A commit can be refused a lock, find a row changed, or be failed by the store when it asks for a
version or commits. However it ends, before its worker comes to the boundary either every
buffered write has been applied and the transaction counts as committed, or no row has changed
and it counts as aborted (`Engine.AllOrNothing`). The worker is idle then, and every row is held
as it was before the commit. Nothing is known about rows after an aborted commit that was not
known before, apart from versions that the store has committed.
-/

namespace LiveIsolation

namespace Engine

variable {e e₁ : Engine} {w w₁ : Worker} {t : OpenTransaction} {known : List String}
  {before locks : LockTable} {guard : Option Guard} {written : List (Place × Nat)}

/-- Nothing is left of the transaction of a worker: no obligation, no buffered write, no lock.
The boundary has not been passed yet. -/
structure Cleared (e : Engine) (w : Worker) (e₁ : Engine) (w₁ : Worker) : Prop where
  id : w₁.id = w.id
  idle : w₁.current = none
  obligations : w₁.obligationCount = 0
  writes : w₁.link.connection.writes = []
  holder : ∀ p, (e₁.locks.lockAt p).holder = (e.locks.lockAt p).holder
  count : ∀ p, (e₁.locks.lockAt p).count = (e.locks.lockAt p).count
  barrier : e₁.barrier = e.barrier
  workers : e₁.workers = e.workers

/-- Each row that a worker has buffered has its value and the next version, the other rows are
the same, and one more transaction counts as committed. -/
structure Applied (e : Engine) (w : Worker) (e₁ : Engine) : Prop where
  rows : ∀ p, e₁.store.row? p =
    match w.link.connection.pending? p with
    | some row => some ⟨row.value, ((e.store.row? p).getD {}).version + 1⟩
    | none => e.store.row? p
  committed : e₁.counters.committed = e.counters.committed + 1
  aborted : e₁.counters.aborted = e.counters.aborted

/-- The store is the same, and one more transaction counts as aborted. A version that was not
known may be known now, and is then the committed one. -/
structure Withdrawn (e e₁ : Engine) : Prop where
  store : e₁.store = e.store
  committed : e₁.counters.committed = e.counters.committed
  aborted : e₁.counters.aborted = e.counters.aborted + 1
  learns : Learns e.locks e₁.locks e.committed?

/-- How a commit ends before its worker comes to the boundary. -/
inductive AllOrNothing (e : Engine) (w : Worker) : Except Fault Unit × Engine × Worker → Prop where
  | all (e₁ : Engine) (w₁ : Worker) (hcleared : Cleared e w e₁ w₁) (happlied : Applied e w e₁) :
    AllOrNothing e w (.ok (), e₁, w₁)
  | nothing (f : Fault) (e₁ : Engine) (w₁ : Worker) (hcleared : Cleared e w e₁ w₁)
    (hwithdrawn : Withdrawn e e₁) : AllOrNothing e w (.error f, e₁, w₁)

/-- What a commit holds when it asks the store to commit: nothing without a guard, or the rows of
its plan beside those who held them before. -/
inductive GuardedBeside (before locks : LockTable) : Option Guard → Prop where
  | unchecked (h : locks.hold? = before.hold?) : GuardedBeside before locks none
  | held (g : Guard) (hbeside : before.Beside locks g.held) (hnodup : g.held.places.Nodup) :
    GuardedBeside before locks (some g)

theorem GuardedBeside.givenBack_eq (h : GuardedBeside before locks guard)
    (hlocks : locks.Whole known) (hbefore : before.Whole known) :
    (givenBack locks guard).hold? = before.hold? ∧
      (givenBack locks guard).cached? = locks.cached? := by
  cases h with
  | unchecked hhold => exact ⟨hhold, rfl⟩
  | held g hbeside hnodup =>
      obtain ⟨back, hback, -, hhold, hcached⟩ :=
        LockTable.releaseAll_beside hlocks.fit hbefore.counted hbeside hnodup false
      simp only [givenBack, Option.elim_some, Guard.releaseAborted, hback]
      exact ⟨hhold, hcached rfl⟩

/-- After the store has committed nothing can fail any more. -/
theorem GuardedBeside.settled_eq (h : GuardedBeside before locks guard)
    (hlocks : locks.Whole known) (hbefore : before.Whole known)
    (hwritten : ∀ x ∈ written, x.1.1 ∈ known) :
    ∃ locks', settled locks guard written = (.ok (), locks') ∧
      locks'.hold? = before.hold? := by
  cases h with
  | unchecked hhold =>
      obtain ⟨locks', hrefresh, -, hhold', -⟩ := refresh_views hlocks.fit hwritten
      refine ⟨locks', ?_, hhold'.trans hhold⟩
      simp only [settled, Option.elim_none, hrefresh, Fault.first_ok]
  | held g hbeside hnodup =>
      obtain ⟨back, hback, hfit, hhold, -⟩ :=
        LockTable.releaseAll_beside hlocks.fit hbefore.counted hbeside hnodup true
      obtain ⟨locks', hrefresh, -, hhold', -⟩ := refresh_views hfit hwritten
      refine ⟨locks', ?_, hhold'.trans hhold⟩
      simp only [settled, Option.elim_some, Guard.releaseCommitted, hback, hrefresh,
        Fault.first_ok]

/-- Where every row is held as before, a worker that is rolled back or has committed is cleared. -/
theorem cleared_of_hold {store : Store} {counters : Counters} (hbefore : e.locks.Whole known)
    (hlocks : locks.Whole known) (hhold : locks.hold? = e.locks.hold?) (w : Worker) :
    Cleared e w { e with locks, store, counters }
      { w with link.connection.writes := [], current := none } where
  id := rfl
  idle := rfl
  obligations := rfl
  writes := rfl
  holder p := (hbefore.holder_eq hlocks hhold p).1
  count p := (hbefore.holder_eq hlocks hhold p).2
  barrier := rfl
  workers := rfl

/-- A transaction that is turned away, or that the store fails, is rolled back. -/
theorem abandon_nothing {counters : Counters} (hbefore : e.locks.Whole e.workload.relations)
    (hlocks : locks.Whole e.workload.relations) (hw : w.Tidy e.workload.relations)
    (hhold : locks.hold? = e.locks.hold?) (hlearns : Learns e.locks locks e.committed?)
    (hcommitted : counters.committed = e.counters.committed)
    (haborted : counters.aborted = e.counters.aborted) (f : Fault) :
    AllOrNothing e w (.error f, { e with locks, counters }.abandon w) := by
  rw [abandon_eq, Link.rollback_eq hw.rollback]
  refine .nothing f _ _ (cleared_of_hold hbefore hlocks hhold w) ?_
  refine ⟨rfl, hcommitted, ?_, hlearns⟩
  exact congrArg (· + 1) haborted

/-- A commit that comes to the store is applied there or changes nothing. -/
theorem concludeDuring_inv (hbefore : e.locks.Whole e.workload.relations)
    (hlocks : locks.Whole e.workload.relations) (hw : w.Tidy e.workload.relations)
    (ht : t.Within e.workload.relations) (hguarded : GuardedBeside e.locks locks guard)
    (hlearns : Learns e.locks locks e.committed?) (unavailable : Bool) :
    AllOrNothing e w ({ e with locks }.concludeDuring w t guard unavailable) := by
  simp only [concludeDuring]
  cases hcommit : w.link.commit ({ e with locks }.storeWhen unavailable) with
  | error f =>
      obtain ⟨hhold, hcached⟩ := hguarded.givenBack_eq hlocks hbefore
      have hback := hlocks.of_reaches (reaches_givenBack locks guard)
      have hlearns' : Learns e.locks (givenBack locks guard) e.committed? := by
        intro p
        rw [hcached]
        exact hlearns p
      exact abandon_nothing hbefore hback hw hhold hlearns' rfl rfl f
  | ok done =>
      obtain ⟨link, store⟩ := done
      obtain ⟨-, -, rfl, rfl⟩ := Link.commit_eq_ok.1 hcommit
      obtain ⟨locks', hsettled, hhold⟩ := hguarded.settled_eq hlocks hbefore ht.written
      have hwhole := hlocks.of_reaches (reaches_settled locks guard t.written)
      simp only [hsettled] at hwhole ⊢
      refine .all _ _ (cleared_of_hold hbefore hwhole hhold w) ⟨?_, rfl, rfl⟩
      intro p
      exact Store.row?_writeAll hw.sorted.nodup_keys _ p

/-- The commit of an open transaction is all or nothing, whatever the locks and the store do. -/
theorem Steady.commitDuring_inv (h : e.Steady) (hw : w.Tidy e.workload.relations)
    (ht : w.current = some t) (down : Nat → Bool) :
    AllOrNothing e w (e.commitDuring w t down) := by
  have hwithin := hw.within t ht
  simp only [commitDuring]
  cases hd : e.barrier.required.discipline? with
  | none =>
      exact concludeDuring_inv h.whole h.whole hw hwithin (.unchecked rfl) (fun _ => .inl rfl) _
  | some d =>
      have hscreened := lockAndValidateDuring_inv (w := w) h.whole (hwithin.obligations d) down
      have hwhole := h.whole.of_reaches (e.reaches_lockAndValidateDuring w t d down)
      dsimp only
      generalize e.lockAndValidateDuring w t d down = x at hscreened hwhole
      cases hscreened with
      | passed locks hbeside hlearns =>
          have hguarded : GuardedBeside e.locks locks
              (some ⟨w.transaction, t.obligations.plan d⟩) :=
            .held _ hbeside (LockPlan.nodup_places_ofObligations _)
          exact concludeDuring_inv h.whole hwhole hw hwithin hguarded hlearns _
      | turnedAway f locks counters hhold hlearns hcommitted haborted =>
          exact abandon_nothing h.whole hwhole hw hhold hlearns hcommitted haborted f

/-- Whatever has happened to an engine and whenever the store fails, the commit of an open
transaction is all or nothing before its worker comes to the boundary. Where nothing happens to
the store during the call and no gate holds the commit up, this is what the call runs. -/
theorem commit_all_or_nothing {workload : Workload} {config : EngineConfig} {keys : KeyRule}
    (hcreate : create workload config keys = .ok e) (turns : List Turn) {id : Nat}
    (hworker : (e.through turns).worker? id = some w) (ht : w.current = some t) :
    (∀ down, AllOrNothing (e.through turns) w ((e.through turns).commitDuring w t down)) ∧
      (w.link.permits = none → ∃ result e₁ w₁,
        (e.through turns).commitDuring w t (fun _ => (e.through turns).store.unavailable) =
            (result, e₁, w₁) ∧
          (e.through turns).start id .commit = e₁.passBoundary w₁ .commit result) := by
  have hsteady := (steady_create hcreate).through turns
  constructor
  · intro down
    exact hsteady.commitDuring_inv (hsteady.tidy id w hworker) ht down
  · intro hgate
    rw [start_commit hworker]
    exact startCommit_eq ht hgate

/-- A commit of the second worker is lost to an outage while it asks for a version. The commit of
the first one stands at its gate then and holds the row 1, which the second worker has read and
written again. -/
def behindGate : List Turn :=
  [.plain (.action (.seed ("x", 1) (.int 10))), .plain (.connectGated 1 0),
    .plain (.action (.connect 2)),
    .plain (.action (.execute 2 "bump" 0 [.int 1])),
    .plain (.action (.execute 2 "bump" 1 [.int 1, .int 11])), .commit 2 (· == 0) false,
    .plain (.action (.execute 1 "bump" 0 [.int 1])),
    .plain (.action (.execute 1 "bump" 1 [.int 1, .int 11])), .plain (.action (.finish 1 .commit)),
    .plain (.action (.execute 2 "bump" 0 [.int 1])),
    .plain (.action (.execute 2 "bump" 1 [.int 1, .int 12]))]

theorem commit_behind_gate :
    ∃ e, create bumping fullSnapshot RowKey.standard = .ok e ∧ ∃ w t,
      (e.through behindGate).worker? 2 = some w ∧ w.current = some t ∧ w.link.permits = none ∧
        (e.through behindGate).locks.hold? ("x", 1) = some (.exclusive, 1) ∧
        (∀ down, AllOrNothing (e.through behindGate) w
          ((e.through behindGate).commitDuring w t down)) ∧
        ∃ result e₁ w₁,
          (e.through behindGate).commitDuring w t
              (fun _ => (e.through behindGate).store.unavailable) = (result, e₁, w₁) ∧
            (e.through behindGate).start 2 .commit = e₁.passBoundary w₁ .commit result := by
  obtain ⟨e, hcreate, hheld, hopen⟩ := exists_create bumping fullSnapshot RowKey.standard
    (fun e => (e.through behindGate).locks.hold? ("x", 1) = some (.exclusive, 1) ∧
      ((e.through behindGate).worker? 2).any
        (fun w => w.current.isSome && w.link.permits.isNone) = true) (by decide +kernel)
  obtain ⟨w, hworker, hw⟩ := (Option.any_eq_true _ _).1 hopen
  obtain ⟨hcurrent, hgate⟩ := Bool.and_eq_true_iff.1 hw
  obtain ⟨t, ht⟩ := Option.isSome_iff_exists.1 hcurrent
  have hpermits : w.link.permits = none := Option.isNone_iff_eq_none.1 hgate
  obtain ⟨hall, hstart⟩ := commit_all_or_nothing hcreate behindGate hworker ht
  exact ⟨e, hcreate, w, t, hworker, ht, hpermits, hheld, hall, hstart hpermits⟩

end Engine

end LiveIsolation
