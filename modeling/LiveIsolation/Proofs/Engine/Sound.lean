import LiveIsolation.Proofs.Engine.Log
import LiveIsolation.Proofs.Engine.Turn

/-!
# Sound engines

Between two turns nobody holds a row, no version is known that has not been committed, and
every open transaction keeps what its log says. All turns in which commits stay apart preserve
this, whatever protocols are in force and whatever the store refuses at whatever moment.

## Implementation notes

Every row has a number, and it is the same one in the engine and in the store, so that the engine
asks for the locks of the very rows that the store changes. The log of a worker counts only while
the worker has a transaction open.
-/

namespace LiveIsolation

/-- A link reports what the store says, has no gate, and lets every rollback through. -/
structure Link.Honest (l : Link) : Prop where
  reported : l.reported = none
  gate : l.permits = none
  rollback : StoreCall.rollback ∉ l.failing

theorem Link.Emptied.honest {l m : Link} (h : l.Emptied m) (hl : l.Honest) : m.Honest where
  reported := h.reported.trans hl.reported
  gate := h.gate hl.gate
  rollback := h.failing ▸ hl.rollback

namespace Engine

variable {e e' e₁ : Engine} {w w₁ : Worker} {t : OpenTransaction} {log : Log}
  {logs logs' : Nat → Log} {id : Nat} {down : Nat → Bool} {result : Except Fault Unit}

/-- An open transaction of a worker follows a log of statements of the workload, and none of
the rows that it saw has got lost. -/
structure Opened (e : Engine) (w : Worker) (t : OpenTransaction) (log : Log) : Prop where
  blocked : w.blocked = none
  sampled : t.sampled = e.config.samples w.transaction
  follows : t.Follows log
  sorted : Ordered.Sorted placeLt w.link.connection.writes
  own : ∀ p, w.link.connection.pending? p = log.own? p
  statements : ∀ v ∈ log, ∃ template ∈ e.workload.templates, v.statement ∈ template.statements
  placed : ∀ v ∈ log, v.Placed e.keys
  older : ∀ v ∈ log, Store.Precedes v.base (e.store.row? v.place)

/-- A worker has written nothing or has a transaction open. -/
structure Fine (e : Engine) (w : Worker) (log : Log) : Prop where
  honest : w.link.Honest
  idle : w.current = none → w.link.connection.writes = []
  opened : ∀ t, w.current = some t → e.Opened w t log

/-- What is sound about an engine apart from its workers. -/
structure Ground (e : Engine) : Prop where
  keys : e.keys.Total
  storeKeys : e.store.keys = e.keys
  fit : e.locks.Fit e.workload.relations
  free : e.locks.Free
  counted : e.store.Counted
  cached : ∀ p v, e.locks.cached? p = some v → ∃ c, e.committed? p = some c ∧ v ≤ c

structure Sound (e : Engine) (logs : Nat → Log) : Prop where
  ground : e.Ground
  id_eq : ∀ id w, e.worker? id = some w → w.id = id
  fine : ∀ id w, e.worker? id = some w → e.Fine w (logs id)

/-- An engine has gone on, and rows have at most got later versions. -/
structure Advances (e e' : Engine) : Prop where
  workload : e'.workload = e.workload
  config : e'.config = e.config
  keys : e'.keys = e.keys
  rows : ∀ p, Store.Precedes (e.store.row? p) (e'.store.row? p)

theorem Advances.refl (e : Engine) : e.Advances e := ⟨rfl, rfl, rfl, fun _ => .refl _⟩

theorem Opened.advance (h : e.Opened w t log) (ha : e.Advances e') : e'.Opened w t log where
  blocked := h.blocked
  sampled := by
    rw [ha.config]
    exact h.sampled
  follows := h.follows
  sorted := h.sorted
  own := h.own
  statements := by
    rw [ha.workload]
    exact h.statements
  placed := by
    rw [ha.keys]
    exact h.placed
  older v hv := (h.older v hv).trans (ha.rows v.place)

theorem Fine.advance (h : e.Fine w log) (ha : e.Advances e') : e'.Fine w log where
  honest := h.honest
  idle := h.idle
  opened t ht := (h.opened t ht).advance ha

/-- A worker that is stopped has no transaction open. -/
theorem Fine.current_of_blocked (h : e.Fine w log) {blocked : Blocked}
    (hblocked : w.blocked = some blocked) : w.current = none := by
  cases hcurrent : w.current with
  | none => rfl
  | some t =>
      have hnone := (h.opened t hcurrent).blocked
      rw [hblocked] at hnone
      cases hnone

theorem fine_of_idle (honest : w.link.Honest) (hcurrent : w.current = none)
    (hwrites : w.link.connection.writes = []) (log : Log) : e.Fine w log where
  honest := honest
  idle _ := hwrites
  opened t ht := by
    rw [hcurrent] at ht
    cases ht

/-- The relation of every statement in a log is known to the lock table. -/
theorem Opened.relation_mem (h : e.Opened w t log) {v : Visit} (hv : v ∈ log) :
    v.statement.relation ∈ e.workload.relations := by
  obtain ⟨template, htemplate, hstatement⟩ := h.statements v hv
  exact Workload.mem_relations.2 ⟨template, htemplate, v.statement, hstatement, rfl⟩

theorem Opened.obligation_mem (h : e.Opened w t log) {d : Discipline} {o : Obligation}
    (ho : o ∈ t.obligations.under d) : o.relation ∈ e.workload.relations := by
  rw [h.follows.obligations] at ho
  obtain ⟨before, v, after, hlog, -, rfl, -⟩ := Log.mem_obligations.1 ho
  exact h.relation_mem (v := v) (by simp [hlog])

theorem Opened.written_mem (h : e.Opened w t log) {x : Place × Nat} (hx : x ∈ t.written) :
    x.1.1 ∈ e.workload.relations := by
  rw [h.follows.written] at hx
  obtain ⟨v, hv, -, hplace, -⟩ := Log.mem_written (p := x.1) (n := x.2) hx
  exact hplace ▸ h.relation_mem hv.mem

/-- What is sound about an engine does not depend on its barrier and its counters. -/
theorem Ground.congr (h : e.Ground) (hworkload : e'.workload = e.workload)
    (hkeys : e'.keys = e.keys) (hlocks : e'.locks = e.locks)
    (hstoreKeys : e'.store.keys = e.store.keys) (hrows : e'.store.rows = e.store.rows) :
    e'.Ground := by
  have hrow : ∀ p, e'.store.row? p = e.store.row? p := by
    intro p
    rw [Store.row?, hrows]
    rfl
  refine ⟨hkeys ▸ h.keys, hstoreKeys.trans (h.storeKeys.trans hkeys.symm), ?_, ?_, ?_, ?_⟩
  · rw [hlocks, hworkload]
    exact h.fit
  · rw [hlocks]
    exact h.free
  · intro p row
    rw [hrow]
    exact h.counted p row
  · intro p v hv
    rw [hlocks] at hv
    rw [committed?, hrow]
    exact h.cached p v hv

/-- A worker is exchanged while the engine goes on. -/
theorem Sound.put (h : e.Sound logs) (hground : e'.Ground) (ha : e.Advances e')
    (hworkers : e'.workers = e.workers) (hfine : e'.Fine w (logs' w.id))
    (hlogs : ∀ i, i ≠ w.id → logs' i = logs i) : (e'.put w).Sound logs' where
  ground := hground.congr rfl rfl rfl rfl rfl
  id_eq i x hx := by
    rw [worker?_put] at hx
    split at hx
    · rename_i hi
      rw [hi, ← Option.some.inj hx]
    · rw [worker?, hworkers] at hx
      exact h.id_eq i x hx
  fine i x hx := by
    rw [worker?_put] at hx
    split at hx
    · rename_i hi
      rw [hi, ← Option.some.inj hx]
      exact hfine.advance ⟨rfl, rfl, rfl, fun _ => .refl _⟩
    · rename_i hi
      rw [worker?, hworkers] at hx
      rw [hlogs i hi]
      exact (h.fine i x hx).advance ⟨ha.workload, ha.config, ha.keys, ha.rows⟩

/-- The workers stay while the engine goes on. -/
theorem Sound.keep (h : e.Sound logs) (hground : e'.Ground) (ha : e.Advances e')
    (hworkers : e'.workers = e.workers) : e'.Sound logs where
  ground := hground
  id_eq i x hx := by
    rw [worker?, hworkers] at hx
    exact h.id_eq i x hx
  fine i x hx := by
    rw [worker?, hworkers] at hx
    exact (h.fine i x hx).advance ha

/-- A worker whose transaction has ended crosses its boundary. -/
theorem Sound.cross (h : e.Sound logs) (hground : e₁.Ground) (ha : e.Advances e₁)
    (hworkers : e₁.workers = e.workers) (honest : w₁.link.Honest) (hcurrent : w₁.current = none)
    (hwrites : w₁.link.connection.writes = []) (hcrossed : e₁.Crossed w₁ e') : e'.Sound logs := by
  obtain ⟨barrier, levels, protocol, blocked, rfl, -⟩ := hcrossed
  refine h.put (hground.congr rfl rfl rfl rfl rfl) ⟨ha.workload, ha.config, ha.keys, ha.rows⟩
    hworkers ?_ fun _ _ => rfl
  exact fine_of_idle (w := { w₁ with protocol, blocked }) honest hcurrent hwrites _

/-- The rows that a commit locks exclusively under the protocol that it follows. -/
def lockedWrites (e : Engine) (t : OpenTransaction) (p : Place) : Bool :=
  e.barrier.required.discipline?.any fun d => (t.obligations.plan d).writes p

/-- The protocol that a commit follows finds nothing wrong with the transaction. -/
def Passes (e : Engine) (t : OpenTransaction) : Prop :=
  ∀ d, e.barrier.required.discipline? = some d →
    LockTable.HoldsUp (t.obligations.under d) (e.locks.seen? e.committed?)

/-- The store keeps a worker's commit from its end at some moment, during the validation or after
it. -/
def Refuses (e : Engine) (w : Worker) (down : Nat → Bool) (f : Fault) : Prop :=
  ∃ k, (∃ p, w.link.fetch (e.storeWhen (down k)) p = .error f) ∨
    w.link.commit (e.storeWhen (down k)) = .error f

/-- What the commit of an open transaction comes to before the boundary, while the store comes and
goes. -/
inductive Ended (e : Engine) (w : Worker) (t : OpenTransaction) (down : Nat → Bool) :
    Except Fault Unit → Engine → Prop where
  | rejected (found : List Conflict) (e₁ : Engine) (hpasses : ¬e.Passes t)
    (hstore : e₁.store = e.store) (hfit : e₁.locks.Fit e.workload.relations)
    (hfree : e₁.locks.Free) (hlearns : Learns e.locks e₁.locks e.committed?) :
    Ended e w t down (.error (.conflicts found)) e₁
  | failed (f : Fault) (e₁ : Engine) (hrefuses : e.Refuses w down f) (hstore : e₁.store = e.store)
    (hfit : e₁.locks.Fit e.workload.relations) (hfree : e₁.locks.Free)
    (hlearns : Learns e.locks e₁.locks e.committed?) : Ended e w t down (.error f) e₁
  | committed (locks : LockTable) (e₁ : Engine) (hpasses : e.Passes t)
    (hstore : e₁.store = { e.store.writeAll w.link.connection.writes with
      commits := e.store.commits + 1 })
    (hfit : e₁.locks.Fit e.workload.relations) (hfree : e₁.locks.Free)
    (hlearns : Learns e.locks locks e.committed?)
    (hcached : ∀ p, e₁.locks.cached? p =
      raisedAll (if e.lockedWrites t p then (locks.cached? p).map (· + 1) else locks.cached? p)
        t.written p) :
    Ended e w t down (.ok ()) e₁

/-- A transaction that may commit is committed or failed by the store. -/
theorem Opened.conclude_ended (hopened : e.Opened w t log) {locks : LockTable}
    {guard : Option Guard} (hfit : locks.Fit e.workload.relations)
    (hlearns : Learns e.locks locks e.committed?)
    (hguarded : Guarded locks guard (e.lockedWrites t)) (hpasses : e.Passes t) (k : Nat)
    (h : { e with locks }.concludeDuring w t guard (down k) = (result, e₁, w₁)) :
    Ended e w t down result e₁ := by
  rcases { e with locks }.concludeDuring_cases w t guard (down k) with
    ⟨f, hcommit, hfailed⟩ | happlied
  · cases hfailed.symm.trans h
    obtain ⟨hfit', hfree, hcached⟩ := hguarded.givenBack_eq hfit
    refine .failed f _ ⟨k, .inr hcommit⟩ rfl hfit' hfree ?_
    intro p
    change (givenBack locks guard).cached? p = _ ∨ _ ∧ (givenBack locks guard).cached? p = _
    rw [hcached p]
    exact hlearns p
  · obtain ⟨locks', hsettled, hfit', hfree, hcached⟩ :=
      hguarded.settled_eq hfit fun x hx => hopened.written_mem hx
    simp only [hsettled] at happlied
    cases happlied.symm.trans h
    exact .committed locks _ hpasses rfl hfit' hfree hlearns hcached

/-- However the store comes and goes, a commit is turned away by its validation, failed by the
store or done. -/
theorem Opened.commitDuring_ended (hground : e.Ground) (hopened : e.Opened w t log)
    (h : e.commitDuring w t down = (result, e₁, w₁)) : Ended e w t down result e₁ := by
  cases hd : e.barrier.required.discipline? with
  | none =>
      have hwrites : e.lockedWrites t = fun _ => false := by
        funext p
        rw [lockedWrites, hd]
        rfl
      simp only [commitDuring, hd] at h
      refine hopened.conclude_ended hground.fit (fun _ => .inl rfl) ?_ ?_ 0 h
      · rw [hwrites]
        exact .unchecked hground.free
      · intro d hd'
        rw [hd] at hd'
        cases hd'
  | some d =>
      have hwrites : e.lockedWrites t = fun p => (t.obligations.plan d).writes p := by
        funext p
        rw [lockedWrites, hd]
        rfl
      have hvalidated := lockAndValidateDuring_validated (w := w) hground.fit hground.free
        (fun o ho => hopened.obligation_mem (d := d) ho) down
      simp only [commitDuring, hd] at h
      generalize e.lockAndValidateDuring w t d down = x at hvalidated h
      cases hvalidated with
      | passed locks hfit hheld hlearns hholds =>
          refine hopened.conclude_ended hfit hlearns ?_ ?_ _ h
          · rw [hwrites]
            exact .held _ hheld (LockPlan.nodup_places_ofObligations _)
          · intro d' hd'
            rw [hd, Option.some.injEq] at hd'
            exact hd' ▸ hholds
      | rejected found locks counters hfit hfree hlearns hholds =>
          cases h
          refine .rejected found _ ?_ rfl hfit hfree hlearns
          intro hpasses
          exact hholds (hpasses d hd)
      | failed f locks hfit hfree hlearns hfetch =>
          obtain ⟨k, hfetch⟩ := hfetch
          cases h
          exact .failed f _ ⟨k, .inl hfetch⟩ rfl hfit hfree hlearns

/-- The rows after the commit of an open transaction. -/
theorem Opened.row?_writeAll (h : e.Opened w t log) (p : Place) :
    (e.store.writeAll w.link.connection.writes).row? p =
      match log.own? p with
      | some row => some ⟨row.value, ((e.store.row? p).getD {}).version + 1⟩
      | none => e.store.row? p := by
  rw [Store.row?_writeAll h.sorted.nodup_keys, ← h.own p]
  rfl

/-- A row that the commit locks exclusively is one that it writes. -/
theorem Opened.own_of_lockedWrites (h : e.Opened w t log) {p : Place}
    (hp : e.lockedWrites t p = true) : ∃ row, log.own? p = some row := by
  simp only [lockedWrites] at hp
  cases hd : e.barrier.required.discipline? with
  | none =>
      rw [hd] at hp
      cases hp
  | some d =>
      rw [hd, Option.any_some, Obligations.plan, LockPlan.writes_ofObligations,
        h.follows.obligations] at hp
      obtain ⟨o, ho, hplace, hwrite⟩ := hp
      obtain ⟨v, hv, -, hwrite', hplace'⟩ :=
        Log.exists_write_obligation.1 ⟨o, ho, hwrite, hplace⟩
      apply Option.ne_none_iff_exists'.1
      intro hnone
      exact Log.own?_eq_none.1 hnone v hv hwrite' hplace'

/-- What has become known is not ahead of what has been committed. -/
theorem Ground.learned_le (h : e.Ground) {locks : LockTable}
    (hlearns : Learns e.locks locks e.committed?) {p : Place} {v : Nat}
    (hv : locks.cached? p = some v) : ∃ c, e.committed? p = some c ∧ v ≤ c := by
  rcases hlearns p with hsame | ⟨-, hcommitted⟩
  · exact h.cached p v (hsame ▸ hv)
  · exact ⟨v, hcommitted ▸ hv, Nat.le_refl v⟩

theorem Ended.ground (hground : e.Ground) (hopened : e.Opened w t log)
    (h : Ended e w t down result e₁) (hending : Ending e w result e₁ w₁) :
    e₁.Ground ∧ ∀ p, Store.Precedes (e.store.row? p) (e₁.store.row? p) := by
  obtain ⟨hworkload, -, hrule, hstoreRule⟩ := hending.settings
  have hkeys : e₁.keys.Total := hrule ▸ hground.keys
  have hstoreKeys : e₁.store.keys = e₁.keys :=
    hstoreRule.trans (hground.storeKeys.trans hrule.symm)
  have hsame : e₁.store = e.store → e₁.locks.Fit e.workload.relations → e₁.locks.Free →
      Learns e.locks e₁.locks e.committed? →
      e₁.Ground ∧ ∀ p, Store.Precedes (e.store.row? p) (e₁.store.row? p) := by
    intro hstore hfit hfree hlearns
    refine ⟨⟨hkeys, hstoreKeys, hworkload ▸ hfit, hfree, hstore ▸ hground.counted, ?_⟩, ?_⟩
    · intro p v hv
      rw [committed?, hstore]
      exact hground.learned_le hlearns hv
    · intro p
      rw [hstore]
      exact .refl _
  cases h with
  | rejected found _ _ hstore hfit hfree hlearns => exact hsame hstore hfit hfree hlearns
  | failed f _ _ hstore hfit hfree hlearns => exact hsame hstore hfit hfree hlearns
  | committed locks _ _ hstore hfit hfree hlearns hcached =>
      have hrow : ∀ p, e₁.store.row? p = (e.store.writeAll w.link.connection.writes).row? p := by
        intro p
        rw [hstore]
        rfl
      refine ⟨⟨hkeys, hstoreKeys, hworkload ▸ hfit, hfree, ?_, ?_⟩, ?_⟩
      · intro p row
        rw [hrow]
        exact hground.counted.writeAll w.link.connection.writes p row
      · intro p v hv
        rw [hcached p] at hv
        rw [committed?, hrow, hopened.row?_writeAll]
        -- A version that is known now was reported for a write, or was known before.
        rcases mem_raisedAll hv with hknown | hwritten
        · cases hown : log.own? p with
          | none =>
              have hunlocked : e.lockedWrites t p = false := by
                rw [Bool.eq_false_iff]
                intro hlocked
                obtain ⟨row, hrow⟩ := hopened.own_of_lockedWrites hlocked
                rw [hown] at hrow
                cases hrow
              rw [hunlocked, if_neg Bool.false_ne_true] at hknown
              exact hground.learned_le hlearns hknown
          | some row =>
              refine ⟨_, rfl, ?_⟩
              split at hknown
              · obtain ⟨k, hk, rfl⟩ := Option.map_eq_some_iff.1 hknown
                obtain ⟨c, hc, hle⟩ := hground.learned_le hlearns hk
                obtain ⟨r, hr, rfl⟩ := Option.map_eq_some_iff.1 hc
                rw [hr]
                exact Nat.succ_le_succ hle
              · obtain ⟨c, hc, hle⟩ := hground.learned_le hlearns hknown
                obtain ⟨r, hr, rfl⟩ := Option.map_eq_some_iff.1 hc
                rw [hr]
                exact Nat.le_succ_of_le hle
        · rw [hopened.follows.written] at hwritten
          obtain ⟨u, hu, hwrite, rfl, rfl⟩ := Log.mem_written hwritten
          cases hown : log.own? u.place with
          | none => exact absurd rfl (Log.own?_eq_none.1 hown u hu.mem hwrite)
          | some row =>
              refine ⟨_, rfl, ?_⟩
              exact Nat.succ_le_succ (hopened.older u hu.mem).version_le
      · intro p
        rw [hrow]
        exact Store.precedes_writeAll e.store w.link.connection.writes p

end Engine

end LiveIsolation
