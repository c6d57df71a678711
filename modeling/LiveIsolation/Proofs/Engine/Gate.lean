import LiveIsolation.Proofs.Engine.Outage

/-!
# Commits that may be held up

A link may hold a commit up at its gate, and the commit goes on when the gate is opened. However
often that happens and whatever the store does meanwhile, the transaction of a worker that commits
is either withdrawn or applied by the time the worker comes to its boundary (`Engine.Ending`).
Nothing is asked here of the locks and of the worker.
-/

namespace LiveIsolation

namespace LockTable

variable {t t' : LockTable} {relation : String} {key : RowKey} {kind : LockKind} {advance : Bool}
  {plan : LockPlan} {f : Fault}

/-- Only an error of the program keeps a lock from being given back. -/
theorem cls_of_release (h : t.release relation key kind advance = (.error f, t')) :
    f.cls = .internal := by
  simp only [release] at h
  cases hfind : t.find? relation with
  | none =>
      rw [hfind] at h
      cases h
      rfl
  | some r =>
      simp only [hfind] at h
      cases hrelease : r.release t.config relation key kind advance with
      | ok done =>
          rw [hrelease] at h
          cases h
      | error g =>
          rw [hrelease] at h
          cases h
          simp only [RelationLocks.release] at hrelease
          split at hrelease
          · cases hrelease
            rfl
          · split at hrelease
            · rename_i hlock
              cases hrelease
              simp only [Lock.release] at hlock
              split at hlock
              · cases hlock
                rfl
              · split at hlock
                · cases hlock
                · cases hlock
            · cases hrelease

theorem cls_of_releaseAll (h : (t.releaseAll advance plan).1 = .error f) : f.cls = .internal := by
  induction plan generalizing t with
  | nil => cases h
  | cons q rest ih =>
      simp only [releaseAll] at h
      cases hrelease : t.release q.relation q.key q.kind advance with
      | mk answer t₁ =>
          rw [hrelease] at h
          cases answer with
          | ok v => exact ih h
          | error g =>
              rw [← Except.error.inj h]
              exact cls_of_release hrelease

end LockTable

/-- What a link is after a transaction has ended. Nothing is buffered if it can roll back. -/
structure Link.Emptied (l m : Link) : Prop where
  connection : m.connection.id = l.connection.id
  failing : m.failing = l.failing
  reported : m.reported = l.reported
  gate : l.permits = none → m.permits = none
  writes : StoreCall.rollback ∉ l.failing → m.connection.writes = []

/-- The permits at a gate do not matter. -/
theorem Link.Emptied.ofPermits {l m : Link} {permits : Option Nat}
    (h : Link.Emptied { l with permits } m) (hpermits : l.permits = none → permits = none) :
    l.Emptied m :=
  ⟨h.connection, h.failing, h.reported, fun hgate => h.gate (hpermits hgate), h.writes⟩

theorem Link.emptied (l : Link) : l.Emptied { l with connection.writes := [] } :=
  ⟨rfl, rfl, rfl, fun h => h, fun _ => rfl⟩

theorem Link.emptied_rollback (l : Link) : l.Emptied l.rollback.2 := by
  obtain ⟨writes, h⟩ := l.rollback_snd
  refine ⟨by rw [h], by rw [h], by rw [h], fun hgate => by rw [h, ← hgate], ?_⟩
  intro hrollback
  rw [Link.rollback_eq hrollback]

namespace Engine

variable {e : Engine} {w : Worker} {t : OpenTransaction} {f : Fault}

theorem cls_of_refresh {locks : LockTable} {written : List (Place × Nat)}
    (h : (refresh locks written).1 = .error f) : f.cls = .internal := by
  induction written generalizing locks with
  | nil => cases h
  | cons x rest ih =>
      obtain ⟨⟨relation, key⟩, version⟩ := x
      simp only [refresh] at h
      cases hupdate : locks.updateVersion relation key version with
      | mk answer locks' =>
          rw [hupdate] at h
          cases answer with
          | ok u => exact ih h
          | error g =>
              rw [← Except.error.inj h]
              simp only [LockTable.updateVersion, LockTable.within] at hupdate
              split at hupdate
              · cases hupdate
                rfl
              · cases hupdate

/-- Once the store has committed, only an error of the program can come up. -/
theorem cls_of_settled {locks : LockTable} {guard : Option Guard} {written : List (Place × Nat)}
    (h : (settled locks guard written).1 = .error f) : f.cls = .internal := by
  cases guard with
  | none => exact cls_of_refresh h
  | some g =>
      simp only [settled, Option.elim_some, Guard.releaseCommitted] at h
      generalize hreleased : locks.releaseAll true g.held = x at h
      obtain ⟨released, locks'⟩ := x
      cases released with
      | ok u => exact cls_of_refresh h
      | error g =>
          rw [← Except.error.inj h]
          exact LockTable.cls_of_releaseAll (congrArg Prod.fst hreleased)

/-- How a commit ends before its worker comes to the boundary. The store of a withdrawn
transaction is the same and one more counts as aborted; the other one has all its buffered writes
in the store and counts as committed. -/
inductive Ending (e : Engine) (w : Worker) : Except Fault Unit → Engine → Worker → Prop where
  | withdrawn (f : Fault) (locks : LockTable) (counters : Counters) (link : Link)
    (hlink : w.link.Emptied link) (hcommitted : counters.committed = e.counters.committed)
    (haborted : counters.aborted = e.counters.aborted + 1) :
    Ending e w (.error f) { e with locks, counters } { w with link, current := none }
  | applied (result : Except Fault Unit) (locks : LockTable) (counters : Counters) (link : Link)
    (hlink : w.link.Emptied link) (hcommitted : counters.committed = e.counters.committed + 1)
    (haborted : counters.aborted = e.counters.aborted)
    (hresult : ∀ f, result = .error f → f.cls = .internal) :
    Ending e w result
      { e with
        locks, counters
        store := { e.store.writeAll w.link.connection.writes with
          commits := e.store.commits + 1 } }
      { w with link, current := none }

/-- Locks, and counters other than those of ended transactions, do not matter. -/
theorem Ending.congr {result : Except Fault Unit} {e₁ : Engine} {w₁ : Worker} {locks : LockTable}
    {counters : Counters} (hcommitted : counters.committed = e.counters.committed)
    (haborted : counters.aborted = e.counters.aborted)
    (h : Ending { e with locks, counters } w result e₁ w₁) : Ending e w result e₁ w₁ := by
  cases h with
  | withdrawn f locks' counters' link hlink hcommitted' haborted' =>
      exact .withdrawn f locks' counters' link hlink (hcommitted'.trans hcommitted)
        (haborted'.trans (congrArg (· + 1) haborted))
  | applied result locks' counters' link hlink hcommitted' haborted' hresult =>
      exact .applied result locks' counters' link hlink
        (hcommitted'.trans (congrArg (· + 1) hcommitted)) (haborted'.trans haborted) hresult

/-- The end of a commit leaves the barrier and the availability of the store alone, and its worker
keeps its number and what its link fails. -/
theorem Ending.leaves {result : Except Fault Unit} {e₁ : Engine} {w₁ : Worker}
    (h : Ending e w result e₁ w₁) :
    e₁.workers = e.workers ∧ e₁.barrier = e.barrier ∧
      e₁.store.unavailable = e.store.unavailable ∧ w₁.id = w.id ∧
      w₁.link.failing = w.link.failing := by
  cases h with
  | withdrawn f locks counters link hlink _ _ => exact ⟨rfl, rfl, rfl, rfl, hlink.failing⟩
  | applied _ locks counters link hlink _ _ _ =>
      refine ⟨rfl, rfl, ?_, rfl, hlink.failing⟩
      rw [Store.writeAll_eq]

/-- The workload, the configuration and the numbers of rows are never changed. -/
theorem Ending.settings {result : Except Fault Unit} {e₁ : Engine} {w₁ : Worker}
    (h : Ending e w result e₁ w₁) :
    e₁.workload = e.workload ∧ e₁.config = e.config ∧ e₁.keys = e.keys ∧
      e₁.store.keys = e.store.keys := by
  cases h with
  | withdrawn f locks counters link _ _ _ => exact ⟨rfl, rfl, rfl, rfl⟩
  | applied _ locks counters link _ _ _ _ =>
      refine ⟨rfl, rfl, rfl, ?_⟩
      rw [Store.writeAll_eq]

theorem Ending.emptied {result : Except Fault Unit} {e₁ : Engine} {w₁ : Worker}
    (h : Ending e w result e₁ w₁) : w₁.current = none ∧ w.link.Emptied w₁.link := by
  cases h with
  | withdrawn f locks counters link hlink _ _ => exact ⟨rfl, hlink⟩
  | applied _ locks counters link hlink _ _ _ => exact ⟨rfl, hlink⟩

/-- A commit that has failed is withdrawn. -/
theorem abort_ends (e : Engine) (w : Worker) (f : Fault) :
    ∃ e₁ w₁, Ending e w (.error f) e₁ w₁ ∧
      e.abort w f = e₁.passBoundary w₁ .commit (.error f) :=
  ⟨_, _, .withdrawn f e.locks (e.counters.finish false) _ w.link.emptied_rollback rfl rfl, rfl⟩

/-- A commit that comes to the store is applied or withdrawn. -/
theorem commitStore_ends (e : Engine) (w : Worker) (t : OpenTransaction) (guard : Option Guard) :
    ∃ result e₁ w₁, Ending e w result e₁ w₁ ∧
      e.commitStore w t guard = e₁.passBoundary w₁ .commit result := by
  cases hcommit : w.link.commit e.store with
  | error f =>
      obtain ⟨e₁, w₁, hending, habort⟩ :=
        { e with locks := givenBack e.locks guard }.abort_ends w f
      refine ⟨_, e₁, w₁, hending.congr rfl rfl, ?_⟩
      simp only [commitStore, hcommit]
      exact habort
  | ok done =>
      obtain ⟨link, store⟩ := done
      obtain ⟨-, -, rfl, rfl⟩ := Link.commit_eq_ok.1 hcommit
      have hending := Ending.applied (e := e) (w := w) (settled e.locks guard t.written).1
        (settled e.locks guard t.written).2 (e.counters.finish true) _ w.link.emptied rfl rfl
        fun f hf => cls_of_settled hf
      refine ⟨_, _, _, hending, ?_⟩
      simp only [commitStore, hcommit]
      cases guard with
      | none => rfl
      | some g => rfl

/-- A commit that comes to the gate of its link passes it or is held up. -/
theorem comeToGate_cases (e : Engine) (w : Worker) (t : OpenTransaction) (guard : Option Guard) :
    (∃ permits, (w.link.permits = none → permits = none) ∧
        e.comeToGate w t guard = e.commitStore { w with link.permits := permits } t guard) ∨
      e.comeToGate w t guard = ([], e.put { w with blocked := some (.atGate guard) }) := by
  have hpass : ∀ permits, w.link.passGate? = some { w.link with permits } →
      e.comeToGate w t guard = e.commitStore { w with link.permits := permits } t guard := by
    intro permits h
    simp only [comeToGate, h]
  cases hpermits : w.link.permits with
  | none =>
      refine .inl ⟨none, fun _ => rfl, hpass none ?_⟩
      have hopen : w.link.passGate? = some w.link := by simp only [Link.passGate?, hpermits]
      rw [hopen, ← hpermits]
  | some n =>
      cases n with
      | zero =>
          have hstop : w.link.passGate? = none := by simp only [Link.passGate?, hpermits]
          exact .inr (by simp only [comeToGate, hstop])
      | succ n =>
          refine .inl ⟨some n, fun h => absurd h (Option.some_ne_none _), hpass (some n) ?_⟩
          simp only [Link.passGate?, hpermits]

/-- What a call comes to that commits the open transaction of a worker. -/
inductive Commits (e : Engine) (w : Worker) : List EngineEvent × Engine → Prop where
  | ends (result : Except Fault Unit) (e₁ : Engine) (w₁ : Worker)
    (hending : Ending e w result e₁ w₁) : Commits e w (e₁.passBoundary w₁ .commit result)
  | waits (guard : Option Guard) (locks : LockTable) (counters : Counters)
    (hcommitted : counters.committed = e.counters.committed)
    (haborted : counters.aborted = e.counters.aborted) :
    Commits e w
      ([], { e with locks, counters }.put { w with blocked := some (.atGate guard) })

theorem comeToGate_commits (e : Engine) (w : Worker) (locks : LockTable) (counters : Counters)
    (hcommitted : counters.committed = e.counters.committed)
    (haborted : counters.aborted = e.counters.aborted) (t : OpenTransaction)
    (guard : Option Guard) :
    Commits e w ({ e with locks, counters }.comeToGate w t guard) := by
  rcases { e with locks, counters }.comeToGate_cases w t guard with
    ⟨permits, hpermits, hgate⟩ | hgate
  · obtain ⟨result, e₁, w₁, hending, hcommit⟩ :=
      { e with locks, counters }.commitStore_ends { w with link.permits := permits } t guard
    rw [hgate, hcommit]
    refine .ends result e₁ w₁ ?_
    have hending' := hending.congr hcommitted haborted
    cases hending' with
    | withdrawn f locks' counters' link hlink hcommitted' haborted' =>
        exact .withdrawn f locks' counters' link (hlink.ofPermits hpermits) hcommitted' haborted'
    | applied _ locks' counters' link hlink hcommitted' haborted' hresult =>
        exact .applied result locks' counters' link (hlink.ofPermits hpermits) hcommitted'
          haborted' hresult
  · rw [hgate]
    exact .waits guard locks counters hcommitted haborted

/-- Locking and validation change the locks and counters other than those of ended transactions. -/
theorem lockAndValidateDuring_eq (e : Engine) (w : Worker) (t : OpenTransaction) (d : Discipline)
    (down : Nat → Bool) :
    ∃ locks counters, (e.lockAndValidateDuring w t d down).2 = { e with locks, counters } ∧
      counters.committed = e.counters.committed ∧ counters.aborted = e.counters.aborted := by
  have hreject : ∀ (locks : LockTable) (conflicts : List Conflict), ∃ counters,
      ({ e with locks }.reject conflicts).2 = { e with locks, counters } ∧
        counters.committed = e.counters.committed ∧ counters.aborted = e.counters.aborted := by
    intro locks conflicts
    obtain ⟨f, counters, hreject, hsame⟩ := { e with locks }.reject_inv conflicts
    exact ⟨counters, congrArg Prod.snd hreject, hsame⟩
  simp only [lockAndValidateDuring]
  split
  · exact ⟨_, _, rfl, rfl, rfl⟩
  · exact ⟨_, hreject _ _⟩
  · split
    · exact ⟨_, _, rfl, rfl, rfl⟩
    · exact ⟨_, _, rfl, rfl, rfl⟩
    · split
      · exact ⟨_, _, rfl, rfl, rfl⟩
      · exact ⟨_, hreject _ _⟩

/-- The commit of an open transaction ends, or is held up at the gate. -/
theorem startCommit_commits (ht : w.current = some t) : Commits e w (e.startCommit w) := by
  cases hd : e.barrier.required.discipline? with
  | none =>
      simp only [startCommit, ht, hd]
      exact comeToGate_commits e w e.locks e.counters rfl rfl t none
  | some d =>
      obtain ⟨locks, counters, he, hcommitted, haborted⟩ :=
        e.lockAndValidateDuring_eq w t d fun _ => e.store.unavailable
      rw [lockAndValidateDuring_const] at he
      cases hlocks : e.lockAndValidate w t d with
      | mk answer e₂ =>
          rw [hlocks] at he
          obtain rfl : e₂ = _ := he
          cases answer with
          | ok guard =>
              simp only [startCommit, ht, hd, hlocks]
              exact comeToGate_commits e w locks counters hcommitted haborted t (some guard)
          | error f =>
              obtain ⟨e₁, w₁, hending, habort⟩ := { e with locks, counters }.abort_ends w f
              simp only [startCommit, ht, hd, hlocks, habort]
              exact .ends _ e₁ w₁ (hending.congr hcommitted haborted)

/-- What a commit comes to that the store fails or commits. -/
theorem concludeDuring_cases (e : Engine) (w : Worker) (t : OpenTransaction)
    (guard : Option Guard) (unavailable : Bool) :
    (∃ f, w.link.commit (e.storeWhen unavailable) = .error f ∧
        e.concludeDuring w t guard unavailable =
          (.error f, { e with locks := givenBack e.locks guard }.abandon w)) ∨
      e.concludeDuring w t guard unavailable =
        ((settled e.locks guard t.written).1,
          { e with
            locks := (settled e.locks guard t.written).2
            store := { e.store.writeAll w.link.connection.writes with
              commits := e.store.commits + 1 }
            counters := e.counters.finish true },
          { w with link.connection.writes := [], current := none }) := by
  simp only [concludeDuring, storeWhen]
  cases hcommit : w.link.commit { e.store with unavailable } with
  | error f => exact .inl ⟨f, rfl, rfl⟩
  | ok done =>
      obtain ⟨link, store⟩ := done
      obtain ⟨-, -, rfl, hstore⟩ := Link.commit_eq_ok.1 hcommit
      rw [Store.writeAll_unavailable] at hstore
      have hsame : { store with unavailable := e.store.unavailable } =
          { e.store.writeAll w.link.connection.writes with commits := e.store.commits + 1 } := by
        rw [hstore, Store.writeAll_eq]
      refine .inr ?_
      simp only [hsame]
      rfl

theorem concludeDuring_ends (e : Engine) (w : Worker) (t : OpenTransaction)
    (guard : Option Guard) (unavailable : Bool) {result : Except Fault Unit} {e₁ : Engine}
    {w₁ : Worker} (h : e.concludeDuring w t guard unavailable = (result, e₁, w₁)) :
    Ending e w result e₁ w₁ := by
  rcases e.concludeDuring_cases w t guard unavailable with ⟨f, -, hfailed⟩ | happlied
  · cases hfailed.symm.trans h
    exact .withdrawn f _ _ _ w.link.emptied_rollback rfl rfl
  · cases happlied.symm.trans h
    exact .applied _ _ _ _ w.link.emptied rfl rfl fun f hf => cls_of_settled hf

/-- A commit during which the store comes and goes ends like any other. -/
theorem commitDuring_ends (e : Engine) (w : Worker) (t : OpenTransaction) (down : Nat → Bool)
    {result : Except Fault Unit} {e₁ : Engine} {w₁ : Worker}
    (h : e.commitDuring w t down = (result, e₁, w₁)) : Ending e w result e₁ w₁ := by
  cases hd : e.barrier.required.discipline? with
  | none =>
      simp only [commitDuring, hd] at h
      exact concludeDuring_ends e w t none (down 0) h
  | some d =>
      obtain ⟨locks, counters, he, hcommitted, haborted⟩ :=
        e.lockAndValidateDuring_eq w t d down
      cases hlocks : e.lockAndValidateDuring w t d down with
      | mk answer e₂ =>
          rw [hlocks] at he
          obtain rfl : e₂ = _ := he
          simp only [commitDuring, hd, hlocks] at h
          cases answer with
          | ok guard =>
              exact (concludeDuring_ends _ w t (some guard) _ h).congr hcommitted haborted
          | error f =>
              cases h
              exact .withdrawn f locks _ _ w.link.emptied_rollback hcommitted
                (congrArg (· + 1) haborted)

end Engine

end LiveIsolation
