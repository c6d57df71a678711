import LiveIsolation.Proofs.Engine.Commit
import LiveIsolation.Proofs.Engine.Validate
import LiveIsolation.Proofs.LockTable.Beside

/-!
# Commits during outages

A commit asks the store several times: for versions while it validates, and then to commit. The
store may become unavailable and available again at any of these moments
(`Engine.commitDuring`). Where it does not change, this is the commit that the engine runs
(`Engine.startCommit_eq`).
-/

namespace LiveIsolation

namespace LockTable

variable {t : LockTable} {known : List String} {cur : Place → Option Nat}

/-- Validates obligations in order, each with what the store answers at its moment; a fault ends
the validation. -/
def validateEach (t : LockTable) :
    List (Obligation × VersionSource) → Except Fault (List Conflict) × LockTable
  | [] => (.ok [], t)
  | (o, fetch) :: rest =>
    match o.observed with
    | none => t.validateEach rest
    | some observed =>
      let (reply, t) := t.currentVersion o.relation o.key (fetch o.relation o.key)
      match reply.version with
      | .error f => (.error f, t)
      | .ok current =>
        let (conflicts, t) := t.validateEach rest
        (conflicts.map (staleness o observed current ++ ·), t)

/-- A store that always answers alike makes this the validation. -/
theorem validateEach_const (t : LockTable) (fetch : VersionSource) (os : List Obligation) :
    t.validateEach (os.map (·, fetch)) =
      ((t.validate fetch os).conflicts, (t.validate fetch os).table) := by
  induction os generalizing t with
  | nil => rfl
  | cons o rest ih =>
      simp only [List.map_cons, validateEach, validate]
      cases o.observed with
      | none => exact ih t
      | some observed =>
          dsimp only
          generalize t.currentVersion o.relation o.key (fetch o.relation o.key) = x
          obtain ⟨⟨answer, asked⟩, t₁⟩ := x
          cases answer with
          | error f => rfl
          | ok current =>
              dsimp only
              rw [ih t₁]

theorem reaches_validateEach (t : LockTable) (checks : List (Obligation × VersionSource)) :
    t.Reaches (t.validateEach checks).2 := by
  induction checks generalizing t with
  | nil => exact .refl t
  | cons check rest ih =>
      obtain ⟨o, fetch⟩ := check
      simp only [validateEach]
      cases o.observed with
      | none => exact ih t
      | some observed =>
          dsimp only
          have hfirst := t.reaches_currentVersion o.relation o.key (fetch o.relation o.key)
          generalize t.currentVersion o.relation o.key (fetch o.relation o.key) = x at hfirst
          obtain ⟨⟨answer, asked⟩, t₁⟩ := x
          cases answer with
          | error f => exact hfirst
          | ok current => exact hfirst.trans (ih t₁)

/-- Whenever the store answers, a validation learns at most the versions that the store has. One
that comes to its end finds a conflict if and only if some obligation does not hold up; it can only
be kept from that by the store. -/
theorem validateEach_learned (h : t.Fit known) {checks : List (Obligation × VersionSource)}
    (hanswers : ∀ check ∈ checks, Answers check.2 cur)
    (hknown : ∀ check ∈ checks, check.1.relation ∈ known) :
    t.Learned (t.validateEach checks).2 known cur ∧
      (∀ cs, (t.validateEach checks).1 = .ok cs →
        (cs = [] ↔ HoldsUp (checks.map Prod.fst) (t.seen? cur))) ∧
      ∀ f, (t.validateEach checks).1 = .error f →
        ∃ check ∈ checks, ∃ relation key, check.2 relation key = .error f := by
  induction checks generalizing t with
  | nil =>
      refine ⟨.refl h, ?_, ?_⟩
      · intro cs hcs
        rw [← Except.ok.inj hcs]
        exact iff_of_true rfl fun o ho => absurd ho List.not_mem_nil
      · intro f hf
        cases hf
  | cons check rest ih =>
      obtain ⟨o, fetch⟩ := check
      have hrest : ∀ x ∈ rest, Answers x.2 cur := fun x hx => hanswers x (List.mem_cons_of_mem _ hx)
      have hrest' : ∀ x ∈ rest, x.1.relation ∈ known :=
        fun x hx => hknown x (List.mem_cons_of_mem _ hx)
      cases ho : o.observed with
      | none =>
          obtain ⟨hlearned, hempty, hfault⟩ := ih h hrest hrest'
          simp only [validateEach, ho, List.map_cons]
          rw [holdsUp_cons_none ho]
          refine ⟨hlearned, hempty, fun f hf => ?_⟩
          obtain ⟨check, hcheck, hfails⟩ := hfault f hf
          exact ⟨check, List.mem_cons_of_mem _ hcheck, hfails⟩
      | some observed =>
          obtain ⟨answer, asked, t₁, hcurrent, hlearned, hok, herror⟩ :=
            currentVersion_learned (p := o.place) h (hanswers _ List.mem_cons_self)
              (hknown _ List.mem_cons_self)
          have hcurrent' : t.currentVersion o.relation o.key (fetch o.relation o.key) =
              (⟨answer, asked⟩, t₁) := hcurrent
          simp only [validateEach, ho, hcurrent', List.map_cons]
          cases answer with
          | error f =>
              refine ⟨hlearned, nofun, fun g hg => ?_⟩
              cases hg
              exact ⟨_, List.mem_cons_self, o.relation, o.key, herror f rfl⟩
          | ok current =>
              obtain ⟨hlater, hempty, hfault⟩ := ih hlearned.fit hrest hrest'
              refine ⟨hlearned.trans hlater, ?_, ?_⟩
              · intro cs hcs
                cases hl : (t₁.validateEach rest).1 with
                | error f =>
                    rw [hl] at hcs
                    cases hcs
                | ok later =>
                    rw [hl] at hcs
                    have hcs' : staleness o observed current ++ later = cs := Except.ok.inj hcs
                    rw [← hcs', List.append_eq_nil_iff, hempty later hl, hok current rfl,
                      hlearned.seen?_eq, holdsUp_cons_some ho]
              · intro f hf
                cases hl : (t₁.validateEach rest).1 with
                | error g =>
                    rw [hl] at hf
                    obtain ⟨check, hcheck, hfails⟩ := hfault g hl
                    exact ⟨check, List.mem_cons_of_mem _ hcheck, Except.error.inj hf ▸ hfails⟩
                | ok later =>
                    rw [hl] at hf
                    cases hf

end LockTable

namespace Engine

variable {e e₁ : Engine} {w : Worker} {t : OpenTransaction} {d : Discipline} {down : Nat → Bool}

/-- The store while it is available or not. -/
def storeWhen (e : Engine) (unavailable : Bool) : Store := { e.store with unavailable }

/-- Obligations, each with what the store answers at its moment. -/
def checksDuring (e : Engine) (w : Worker) (down : Nat → Bool) (os : List Obligation) :
    List (Obligation × VersionSource) :=
  os.mapIdx fun k o => (o, fun relation key => w.link.fetch (e.storeWhen (down k)) (relation, key))

/-- Locks and validates the obligations of a transaction while the store comes and goes. -/
def lockAndValidateDuring (e : Engine) (w : Worker) (t : OpenTransaction) (d : Discipline)
    (down : Nat → Bool) : Except Fault Guard × Engine :=
  match Guard.acquire e.locks (t.obligations.plan d) w.transaction d with
  | (.error f, locks) => (.error f, { e with locks })
  | (.ok (_, conflict :: conflicts), locks) =>
    let (f, e) := { e with locks }.reject (conflict :: conflicts)
    (.error f, e)
  | (.ok (guard, []), locks) =>
    match locks.validateEach (e.checksDuring w down (t.obligations.under d)) with
    | (.ok [], locks) => (.ok guard, { e with locks })
    | (.error f, locks) => (.error f, { e with locks := (guard.releaseAborted locks).2 })
    | (.ok conflicts, locks) =>
      match guard.releaseAborted locks with
      | (.error f, locks) => (.error f, { e with locks })
      | (.ok (), locks) =>
        let (f, e) := { e with locks }.reject conflicts
        (.error f, e)

/-- The store is asked to commit a transaction that may commit. -/
def concludeDuring (e : Engine) (w : Worker) (t : OpenTransaction) (guard : Option Guard)
    (unavailable : Bool) : Except Fault Unit × Engine × Worker :=
  match w.link.commit (e.storeWhen unavailable) with
  | .error f => (.error f, { e with locks := givenBack e.locks guard }.abandon w)
  | .ok (link, store) =>
    let (result, locks) := settled e.locks guard t.written
    (result, { e with store := { store with unavailable := e.store.unavailable }, locks }.finish
      { w with link } true)

/-- The commit of an open transaction up to the boundary. The store is asked for the version of
the obligation `k` at the moment `k`, and to commit after all of them. -/
def commitDuring (e : Engine) (w : Worker) (t : OpenTransaction) (down : Nat → Bool) :
    Except Fault Unit × Engine × Worker :=
  match e.barrier.required.discipline? with
  | none => e.concludeDuring w t none (down 0)
  | some d =>
    match e.lockAndValidateDuring w t d down with
    | (.ok guard, e) => e.concludeDuring w t (some guard) (down (t.obligations.under d).length)
    | (.error f, e) => (.error f, e.abandon w)

theorem storeWhen_self (e : Engine) : e.storeWhen e.store.unavailable = e.store := rfl

theorem checksDuring_const (e : Engine) (w : Worker) (os : List Obligation) :
    e.checksDuring w (fun _ => e.store.unavailable) os =
      os.map (·, fun relation key => w.link.fetch e.store (relation, key)) := by
  apply List.ext_getElem?
  intro k
  simp only [checksDuring, storeWhen_self]
  rw [List.getElem?_mapIdx, List.getElem?_map]

theorem lockAndValidateDuring_const (e : Engine) (w : Worker) (t : OpenTransaction)
    (d : Discipline) :
    e.lockAndValidateDuring w t d (fun _ => e.store.unavailable) = e.lockAndValidate w t d := by
  simp only [lockAndValidateDuring, lockAndValidate]
  rw [checksDuring_const]
  generalize Guard.acquire e.locks (t.obligations.plan d) w.transaction d = x
  obtain ⟨answer, locks⟩ := x
  cases answer with
  | error f => rfl
  | ok acquired =>
      obtain ⟨guard, conflicts⟩ := acquired
      cases conflicts with
      | cons conflict rest => rfl
      | nil =>
          dsimp only
          rw [LockTable.validateEach_const]
          generalize locks.validate (fun relation key => w.link.fetch e.store (relation, key))
            (t.obligations.under d) = check
          obtain ⟨conflicts, fetched, table⟩ := check
          cases conflicts with
          | error f => rfl
          | ok conflicts =>
              cases conflicts with
              | nil => rfl
              | cons conflict rest => rfl

/-- A transaction that is turned away for its conflicts is counted as such only. -/
theorem reject_inv (e : Engine) (conflicts : List Conflict) :
    ∃ f counters, e.reject conflicts = (f, { e with counters }) ∧
      counters.committed = e.counters.committed ∧ counters.aborted = e.counters.aborted := by
  simp only [reject]
  cases Conflict.settle conflicts with
  | error f => exact ⟨f, _, rfl, rfl, rfl⟩
  | ok u => exact ⟨_, _, rfl, rfl, rfl⟩

/-- Whatever locking and validation come to, the table has served some calls. -/
theorem reaches_lockAndValidateDuring (e : Engine) (w : Worker) (t : OpenTransaction)
    (d : Discipline) (down : Nat → Bool) :
    e.locks.Reaches (e.lockAndValidateDuring w t d down).2.locks := by
  have hacquire := e.locks.reaches_acquireAll w.transaction d [] (t.obligations.plan d)
  simp only [lockAndValidateDuring, Guard.acquire]
  generalize e.locks.acquireAll w.transaction d [] (t.obligations.plan d) = x at hacquire
  obtain ⟨answer, locks⟩ := x
  cases answer with
  | error f => exact hacquire
  | ok acquired =>
      obtain ⟨held, conflicts⟩ := acquired
      cases conflicts with
      | cons conflict rest =>
          obtain ⟨f, counters, hreject, -⟩ := { e with locks }.reject_inv (conflict :: rest)
          simp only [hreject]
          exact hacquire
      | nil =>
          dsimp only
          have hchecked := hacquire.trans
            (locks.reaches_validateEach (e.checksDuring w down (t.obligations.under d)))
          generalize locks.validateEach (e.checksDuring w down (t.obligations.under d)) = y
            at hchecked
          obtain ⟨found, table⟩ := y
          have hback := hchecked.trans (table.reaches_releaseAll false held)
          cases found with
          | error f => exact hback
          | ok found =>
              cases found with
              | nil => exact hchecked
              | cons conflict rest =>
                  simp only [Guard.releaseAborted]
                  generalize table.releaseAll false held = z at hback
                  obtain ⟨released, back⟩ := z
                  cases released with
                  | error f => exact hback
                  | ok u =>
                      obtain ⟨f, counters, hreject, -⟩ :=
                        { e with locks := back }.reject_inv (conflict :: rest)
                      simp only [hreject]
                      exact hback

/-- A commit at a store that does not change is decided as the engine decides it. -/
theorem concludeDuring_const (e : Engine) (w : Worker) (t : OpenTransaction)
    (guard : Option Guard) :
    ∃ result e₁ w₁, e.concludeDuring w t guard e.store.unavailable = (result, e₁, w₁) ∧
      e.commitStore w t guard = e₁.passBoundary w₁ .commit result := by
  refine ⟨_, _, _, rfl, ?_⟩
  simp only [commitStore, storeWhen_self]
  cases hcommit : w.link.commit e.store with
  | error f => rfl
  | ok done =>
      obtain ⟨link, store⟩ := done
      obtain ⟨-, -, -, rfl⟩ := Link.commit_eq_ok.1 hcommit
      have hstore : (e.store.writeAll w.link.connection.writes).unavailable =
          e.store.unavailable := by
        rw [Store.writeAll_eq]
      dsimp only
      rw [← hstore]
      cases guard with
      | none => rfl
      | some g => rfl

/-- Where nothing happens to the store meanwhile, this is the commit that the engine runs. -/
theorem startCommit_eq (hcurrent : w.current = some t) (hgate : w.link.permits = none) :
    ∃ result e₁ w₁, e.commitDuring w t (fun _ => e.store.unavailable) = (result, e₁, w₁) ∧
      e.startCommit w = e₁.passBoundary w₁ .commit result := by
  simp only [startCommit, hcurrent, commitDuring]
  cases hd : e.barrier.required.discipline? with
  | none =>
      dsimp only
      rw [comeToGate_eq e t none hgate]
      exact e.concludeDuring_const w t none
  | some d =>
      dsimp only
      rw [lockAndValidateDuring_const]
      obtain ⟨locks, counters, he⟩ := lockAndValidate_eq e w t d
      generalize e.lockAndValidate w t d = x at he
      obtain ⟨answer, e₂⟩ := x
      cases answer with
      | error f => exact ⟨_, _, _, rfl, rfl⟩
      | ok guard =>
          dsimp only
          rw [comeToGate_eq e₂ t (some guard) hgate]
          have hstore : e₂.store = e.store := by
            rw [show e₂ = _ from he]
          rw [← hstore]
          exact e₂.concludeDuring_const w t (some guard)

section Screened
variable {relations : List String}

/-- Whenever the store answers, it answers with the committed versions. -/
theorem answers_checksDuring (e : Engine) (w : Worker) (down : Nat → Bool)
    {os : List Obligation} {check : Obligation × VersionSource}
    (h : check ∈ e.checksDuring w down os) :
    check.1 ∈ os ∧ LockTable.Answers check.2 e.committed? := by
  obtain ⟨k, hk, rfl⟩ := List.mem_mapIdx.1 h
  refine ⟨List.getElem_mem hk, ?_⟩
  intro relation key v hv
  exact (Link.fetch_eq_ok.1 hv).2.2

/-- The obligations are checked in order, each once. -/
theorem map_checksDuring (e : Engine) (w : Worker) (down : Nat → Bool) (os : List Obligation) :
    (e.checksDuring w down os).map Prod.fst = os := by
  apply List.ext_getElem?
  intro k
  rw [checksDuring, List.getElem?_map, List.getElem?_mapIdx, Option.map_map]
  exact congrFun Option.map_id _

/-- What locking and validation come to where nobody holds a row. -/
inductive Validated (e : Engine) (w : Worker) (t : OpenTransaction) (d : Discipline)
    (down : Nat → Bool) : Except Fault Guard × Engine → Prop where
  | passed (locks : LockTable) (hfit : locks.Fit e.workload.relations)
    (hheld : locks.HeldBy (t.obligations.plan d)) (hlearns : Learns e.locks locks e.committed?)
    (hholds : LockTable.HoldsUp (t.obligations.under d) (e.locks.seen? e.committed?)) :
    Validated e w t d down (.ok ⟨w.transaction, t.obligations.plan d⟩, { e with locks })
  | rejected (found : List Conflict) (locks : LockTable) (counters : Counters)
    (hfit : locks.Fit e.workload.relations) (hfree : locks.Free)
    (hlearns : Learns e.locks locks e.committed?)
    (hholds : ¬LockTable.HoldsUp (t.obligations.under d) (e.locks.seen? e.committed?)) :
    Validated e w t d down (.error (.conflicts found), { e with locks, counters })
  | failed (f : Fault) (locks : LockTable) (hfit : locks.Fit e.workload.relations)
    (hfree : locks.Free) (hlearns : Learns e.locks locks e.committed?)
    (hfetch : ∃ k p, w.link.fetch (e.storeWhen (down k)) p = .error f) :
    Validated e w t d down (.error f, { e with locks })

/-- Where nobody holds a row, a transaction gets all locks of its plan, and is turned away if one of
its obligations does not hold up or the store does not tell a version. -/
theorem lockAndValidateDuring_validated (hfit : e.locks.Fit e.workload.relations)
    (hfree : e.locks.Free) (hos : ∀ o ∈ t.obligations.under d, o.relation ∈ e.workload.relations)
    (down : Nat → Bool) : Validated e w t d down (e.lockAndValidateDuring w t d down) := by
  obtain ⟨locks, hacquire, hfit₁, hheld, hcached⟩ := acquire_plan hfit hfree hos w.transaction d
  have hseen : locks.seen? e.committed? = e.locks.seen? e.committed? := by
    funext p
    rw [LockTable.seen?, LockTable.seen?, hcached]
  have hchecks : ∀ check ∈ e.checksDuring w down (t.obligations.under d),
      check.1 ∈ t.obligations.under d ∧ LockTable.Answers check.2 e.committed? :=
    fun check hcheck => e.answers_checksDuring w down hcheck
  obtain ⟨hlearned, hempty, hfault⟩ := LockTable.validateEach_learned hfit₁
    (fun check hcheck => (hchecks check hcheck).2)
    fun check hcheck => hos check.1 (hchecks check hcheck).1
  rw [map_checksDuring, hseen] at hempty
  have hacquire' : Guard.acquire e.locks (t.obligations.plan d) w.transaction d =
      (.ok (⟨w.transaction, t.obligations.plan d⟩, []), locks) := hacquire
  simp only [lockAndValidateDuring, hacquire']
  generalize hvalidate : locks.validateEach (e.checksDuring w down (t.obligations.under d)) = x
    at hlearned hempty hfault
  obtain ⟨conflicts, checked⟩ := x
  have hlearns : ∀ locks', (∀ p, locks'.cached? p = checked.cached? p) →
      Learns e.locks locks' e.committed? := by
    intro locks' hsame p
    rw [hsame p, ← hcached]
    exact hlearned.cached p
  have hheld' : checked.HeldBy (t.obligations.plan d) := by
    constructor
    · intro q hq
      rw [hlearned.hold]
      exact hheld.held q hq
    · intro p hp
      rw [hlearned.hold]
      exact hheld.free p hp
  obtain ⟨back, hback, hfit₂, hfree₂, hcached₂⟩ :=
    LockTable.releaseAll_heldBy hlearned.fit hheld' (LockPlan.nodup_places_ofObligations _) false
  have hrelease : Guard.releaseAborted ⟨w.transaction, t.obligations.plan d⟩ checked =
      (.ok (), back) := hback
  have hunlocked : ∀ p, back.cached? p = checked.cached? p := by
    intro p
    rw [hcached₂ p, Bool.false_and, if_neg Bool.false_ne_true]
  cases conflicts with
  | error f =>
      obtain ⟨check, hcheck, relation, key, hfetch⟩ := hfault f rfl
      obtain ⟨k, hk, rfl⟩ := List.mem_mapIdx.1 hcheck
      simp only [hrelease]
      exact .failed f back hfit₂ hfree₂ (hlearns back hunlocked) ⟨k, (relation, key), hfetch⟩
  | ok found =>
      have hholds := hempty found rfl
      cases found with
      | nil => exact .passed checked hlearned.fit hheld' (hlearns _ fun _ => rfl) (hholds.1 rfl)
      | cons conflict rest =>
          simp only [hrelease, reject, Conflict.settle]
          refine .rejected _ back _ hfit₂ hfree₂ (hlearns back hunlocked) ?_
          intro h
          cases hholds.2 h

/-- What locking and validation come to. -/
inductive Screened (e : Engine) (w : Worker) (t : OpenTransaction) (d : Discipline) :
    Except Fault Guard × Engine → Prop where
  | passed (locks : LockTable) (hbeside : e.locks.Beside locks (t.obligations.plan d))
    (hlearns : Learns e.locks locks e.committed?) :
    Screened e w t d (.ok ⟨w.transaction, t.obligations.plan d⟩, { e with locks })
  | turnedAway (f : Fault) (locks : LockTable) (counters : Counters)
    (hhold : locks.hold? = e.locks.hold?) (hlearns : Learns e.locks locks e.committed?)
    (hcommitted : counters.committed = e.counters.committed)
    (haborted : counters.aborted = e.counters.aborted) :
    Screened e w t d (.error f, { e with locks, counters })

/-- The locks of a plan are taken beside those of others, or there is a conflict and nothing has
changed for anybody. -/
theorem acquire_beside {locks : LockTable} (h : locks.Whole relations) {os : Obligations}
    (hos : ∀ o ∈ os.under d, o.relation ∈ relations) (requester : Nat) :
    ∃ locks', locks'.Fit relations ∧ locks'.cached? = locks.cached? ∧
      ((Guard.acquire locks (os.plan d) requester d =
            (.ok (⟨requester, os.plan d⟩, []), locks') ∧
          locks.Beside locks' (os.plan d)) ∨
        (∃ conflict, Guard.acquire locks (os.plan d) requester d =
            (.ok (⟨requester, []⟩, [conflict]), locks')) ∧
          locks'.hold? = locks.hold?) := by
  have hnodup : (LockPlan.places ([] ++ os.plan d)).Nodup := by
    rw [List.nil_append]
    exact LockPlan.nodup_places_ofObligations _
  have hknown : ∀ q ∈ os.plan d, q.relation ∈ relations := by
    intro q hq
    obtain ⟨o, ho, hrelation⟩ := LockPlan.exists_of_mem_ofObligations hq
    exact hrelation ▸ hos o ho
  obtain ⟨locks', hfit, hcached, ⟨hall, hbeside⟩ | ⟨⟨conflict, hall⟩, hhold⟩⟩ :=
    LockTable.acquireAll_beside h h.counted (LockTable.beside_nil rfl) hnodup hknown requester d
  · rw [List.nil_append] at hall hbeside
    refine ⟨locks', hfit, hcached, .inl ⟨?_, hbeside⟩⟩
    simp only [Guard.acquire, hall]
  · refine ⟨locks', hfit, hcached, .inr ⟨⟨conflict, ?_⟩, hhold⟩⟩
    simp only [Guard.acquire, hall]

/-- How a commit locks and validates. -/
inductive Locking (e : Engine) (w : Worker) (t : OpenTransaction) (d : Discipline) :
    Except Fault Guard × Engine → Prop where
  /-- A row is refused, and none is kept. -/
  | refused (f : Fault) (conflict : Conflict) (locks : LockTable) (counters : Counters)
    (hacquire : Guard.acquire e.locks (t.obligations.plan d) w.transaction d =
      (.ok (⟨w.transaction, []⟩, [conflict]), locks))
    (hhold : locks.hold? = e.locks.hold?) (hlearns : Learns e.locks locks e.committed?)
    (hcommitted : counters.committed = e.counters.committed)
    (haborted : counters.aborted = e.counters.aborted) :
    Locking e w t d (.error f, { e with locks, counters })
  /-- The rows are granted, but one has changed or the store does not answer. -/
  | rejected (f : Fault) (taken checked : LockTable) (counters : Counters)
    (hacquire : Guard.acquire e.locks (t.obligations.plan d) w.transaction d =
      (.ok (⟨w.transaction, t.obligations.plan d⟩, []), taken))
    (hreaches : taken.Reaches checked) (hfit : checked.Fit e.workload.relations)
    (hbeside : e.locks.Beside checked (t.obligations.plan d))
    (hlearns : Learns e.locks checked e.committed?)
    (hcommitted : counters.committed = e.counters.committed)
    (haborted : counters.aborted = e.counters.aborted) :
    Locking e w t d (.error f,
      { e with locks := givenBack checked (some ⟨w.transaction, t.obligations.plan d⟩), counters })
  | passed (taken checked : LockTable)
    (hacquire : Guard.acquire e.locks (t.obligations.plan d) w.transaction d =
      (.ok (⟨w.transaction, t.obligations.plan d⟩, []), taken))
    (hreaches : taken.Reaches checked) (hfit : checked.Fit e.workload.relations)
    (hbeside : e.locks.Beside checked (t.obligations.plan d))
    (hlearns : Learns e.locks checked e.committed?) :
    Locking e w t d
      (.ok ⟨w.transaction, t.obligations.plan d⟩, { e with locks := checked })

theorem lockAndValidateDuring_locking (h : e.locks.Whole e.workload.relations)
    (hos : ∀ o ∈ t.obligations.under d, o.relation ∈ e.workload.relations)
    (down : Nat → Bool) : Locking e w t d (e.lockAndValidateDuring w t d down) := by
  obtain ⟨taken, hfit, hcached, ⟨hacquire, hbeside⟩ | ⟨⟨conflict, hacquire⟩, hhold⟩⟩ :=
    acquire_beside h hos w.transaction
  · have hlearned : taken.Learned
        (taken.validateEach (e.checksDuring w down (t.obligations.under d))).2
        e.workload.relations e.committed? := by
      refine (LockTable.validateEach_learned hfit ?_ ?_).1
      · intro check hcheck
        exact (e.answers_checksDuring w down hcheck).2
      · intro check hcheck
        exact hos check.1 (e.answers_checksDuring w down hcheck).1
    have hreaches := taken.reaches_validateEach (e.checksDuring w down (t.obligations.under d))
    simp only [lockAndValidateDuring, hacquire]
    generalize taken.validateEach (e.checksDuring w down (t.obligations.under d)) = x
      at hlearned hreaches
    obtain ⟨conflicts, checked⟩ := x
    have hlearns : Learns e.locks checked e.committed? := by
      intro p
      rw [← hcached]
      exact hlearned.cached p
    have hbeside' : e.locks.Beside checked (t.obligations.plan d) := hbeside.congr hlearned.hold
    -- what happens to the locks is the same for every verdict but a clean one
    have hrejected : ∀ f counters, counters.committed = e.counters.committed →
        counters.aborted = e.counters.aborted → Locking e w t d (.error f, { e with
          locks := givenBack checked (some ⟨w.transaction, t.obligations.plan d⟩), counters }) :=
      fun f counters => .rejected f taken checked counters hacquire hreaches hlearned.fit hbeside'
        hlearns
    simp only [givenBack, Option.elim_some] at hrejected
    cases conflicts with
    | error f => exact hrejected f e.counters rfl rfl
    | ok conflicts =>
        cases conflicts with
        | nil => exact .passed taken checked hacquire hreaches hlearned.fit hbeside' hlearns
        | cons conflict rest =>
            dsimp only
            generalize Guard.releaseAborted ⟨w.transaction, t.obligations.plan d⟩ checked = y
              at hrejected
            obtain ⟨released, back⟩ := y
            cases released with
            | error f => exact hrejected f e.counters rfl rfl
            | ok u =>
                obtain ⟨f, counters, hreject, hcommitted, haborted⟩ :=
                  { e with locks := back }.reject_inv (conflict :: rest)
                simp only [hreject]
                exact hrejected f counters hcommitted haborted
  · obtain ⟨f, counters, hreject, hcommitted, haborted⟩ :=
      { e with locks := taken }.reject_inv [conflict]
    simp only [lockAndValidateDuring, hacquire, hreject]
    exact .refused f conflict taken counters hacquire hhold (fun p => .inl (congrFun hcached p))
      hcommitted haborted

theorem lockAndValidateDuring_inv (h : e.locks.Whole e.workload.relations)
    (hos : ∀ o ∈ t.obligations.under d, o.relation ∈ e.workload.relations)
    (down : Nat → Bool) : Screened e w t d (e.lockAndValidateDuring w t d down) := by
  have hlocking := lockAndValidateDuring_locking (w := w) h hos down
  generalize e.lockAndValidateDuring w t d down = x at hlocking
  cases hlocking with
  | refused f conflict locks counters _ hhold hlearns hcommitted haborted =>
      exact .turnedAway f locks counters hhold hlearns hcommitted haborted
  | rejected f taken checked counters _ _ hfit hbeside hlearns hcommitted haborted =>
      obtain ⟨back, hback, -, hhold, hcached⟩ :=
        LockTable.releaseAll_beside hfit h.counted hbeside
          (LockPlan.nodup_places_ofObligations _) false
      have hgiven : givenBack checked (some ⟨w.transaction, t.obligations.plan d⟩) = back :=
        congrArg Prod.snd hback
      rw [hgiven]
      refine .turnedAway f back counters hhold (fun p => ?_) hcommitted haborted
      rw [hcached rfl]
      exact hlearns p
  | passed taken checked _ _ _ hbeside hlearns => exact .passed checked hbeside hlearns

end Screened

end Engine

end LiveIsolation
