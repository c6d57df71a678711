import LiveIsolation.Proofs.Engine.Sound

/-!
# Known versions trail the store

Where the commits of workers do not overlap, the lock table never knows a version that the store has
not committed (`Engine.Trailing`). A commit advances known versions of rows that it has locked
exclusively and makes known what its writes were told; in both cases the store has committed the row
in that very commit, since every validated or recorded write of an open transaction is buffered
(`Engine.Buffers`). Any rule may number the rows, as long as the engine and the store share it.
-/

namespace LiveIsolation

namespace LockTable

/-- Beside nobody, a plan is all that is held. -/
theorem Free.heldBy_of_beside {before t : LockTable} {held : LockPlan} (h : before.Free)
    (hbeside : before.Beside t held) : t.HeldBy held where
  held q hq := by
    rw [hbeside.joined q hq, h q.place]
    rfl
  free p hp := (hbeside.others p hp).trans (h p)

end LockTable

namespace Engine

variable {e e' e₁ : Engine} {w w₁ : Worker} {t : OpenTransaction} {locks : LockTable}
  {guard : Option Guard} {p : Place}

/-- The known versions of a table have been committed. -/
def Backed (e : Engine) (locks : LockTable) : Prop :=
  ∀ p v, locks.cached? p = some v → ∃ c, e.committed? p = some c ∧ v ≤ c

/-- A worker has buffered a version of each row that its transaction has written, and none that is
more than one ahead of the store. -/
structure Buffers (e : Engine) (w : Worker) : Prop where
  honest : w.link.Honest
  ahead : ∀ p row, w.link.connection.pending? p = some row →
    row.version ≤ ((e.store.row? p).getD {}).version + 1
  obligations : ∀ t, w.current = some t → ∀ d, ∀ o ∈ t.obligations.under d,
    o.kind.isWrite = true → ∃ row, w.link.connection.pending? o.place = some row
  written : ∀ t, w.current = some t → ∀ x ∈ t.written,
    ∃ row, w.link.connection.pending? x.1 = some row ∧ row.version = x.2

/-- Nobody holds a row between two turns, and every known version has been committed. -/
structure Trailing (e : Engine) : Prop where
  keys : e.store.keys = e.keys
  free : e.locks.Free
  backed : e.Backed e.locks
  buffers : ∀ id w, e.worker? id = some w → e.Buffers w

section Keep

/-- Rows have at most got later versions. -/
theorem Buffers.later (h : e.Buffers w)
    (hrows : ∀ p, Store.Precedes (e.store.row? p) (e'.store.row? p)) : e'.Buffers w where
  honest := h.honest
  ahead p row hrow := (h.ahead p row hrow).trans (Nat.succ_le_succ (hrows p).version_le)
  obligations := h.obligations
  written := h.written

theorem Backed.later (h : e.Backed locks)
    (hrows : ∀ p, Store.Precedes (e.store.row? p) (e'.store.row? p)) : e'.Backed locks := by
  intro p v hv
  obtain ⟨c, hc, hle⟩ := h p v hv
  obtain ⟨r, hr, rfl⟩ := Option.map_eq_some_iff.1 hc
  obtain ⟨r', hr', hlater⟩ := hrows p r hr
  refine ⟨r'.version, ?_, hle.trans ?_⟩
  · exact congrArg (Option.map (·.version)) hr'
  · rcases hlater with rfl | hlt
    · exact Nat.le_refl _
    · exact Nat.le_of_lt hlt

/-- What becomes known where it was not known is committed. -/
theorem Backed.learns (h : e.Backed e.locks) (hlearns : Learns e.locks locks e.committed?) :
    e.Backed locks := by
  intro p v hv
  rcases hlearns p with hsame | ⟨-, hcommitted⟩
  · exact h p v (hsame ▸ hv)
  · exact ⟨v, hcommitted ▸ hv, Nat.le_refl v⟩

/-- A worker without an open transaction and without buffered writes. -/
theorem buffers_of_idle (honest : w.link.Honest) (hcurrent : w.current = none)
    (hwrites : w.link.connection.writes = []) : e.Buffers w where
  honest := honest
  ahead p row hrow := by
    rw [Connection.pending?, hwrites] at hrow
    cases hrow
  obligations t ht := by
    rw [hcurrent] at ht
    cases ht
  written t ht := by
    rw [hcurrent] at ht
    cases ht

/-- The barrier, the counters and the levels of connections do not matter. -/
theorem Trailing.congr (h : e.Trailing) (hkeys : e'.keys = e.keys) (hlocks : e'.locks = e.locks)
    (hstoreKeys : e'.store.keys = e.store.keys) (hrows : e'.store.rows = e.store.rows)
    (hworkers : e'.workers = e.workers) : e'.Trailing := by
  have hlater : ∀ p, Store.Precedes (e.store.row? p) (e'.store.row? p) := by
    intro p
    rw [Store.row?, Store.row?, hrows]
    exact .refl _
  refine ⟨?_, ?_, ?_, ?_⟩
  · rw [hstoreKeys, hkeys]
    exact h.keys
  · rw [hlocks]
    exact h.free
  · rw [hlocks]
    exact h.backed.later hlater
  · intro i x hx
    rw [worker?, hworkers] at hx
    exact (h.buffers i x hx).later hlater

theorem Trailing.put (h : e.Trailing) (hw : e.Buffers w) : (e.put w).Trailing where
  keys := h.keys
  free := h.free
  backed := h.backed.later fun _ => .refl _
  buffers i x hx := by
    rw [worker?_put] at hx
    split at hx
    · rw [← Option.some.inj hx]
      exact hw.later fun _ => .refl _
    · exact (h.buffers i x hx).later fun _ => .refl _

/-- A worker crosses its boundary. -/
theorem Trailing.cross (h : e.Trailing) (hw : e.Buffers w) (hcrossed : e.Crossed w e') :
    e'.Trailing := by
  obtain ⟨barrier, levels, protocol, blocked, rfl, -⟩ := hcrossed
  have hengine : Trailing { e with barrier, store.levels := levels } :=
    h.congr rfl rfl rfl rfl rfl
  exact hengine.put (w := { w with protocol, blocked })
    ⟨hw.honest, hw.ahead, hw.obligations, hw.written⟩

end Keep

section Commit

/-- After a transaction has been withdrawn nothing has changed but what is known. -/
theorem Trailing.withdraw (h : e.Trailing) (hw : e.Buffers w) {link : Link}
    (hlink : w.link.Emptied link) (hfree : locks.Free)
    (hlearns : Learns e.locks locks e.committed?) (counters : Counters) :
    Trailing { e with locks, counters } ∧
      Buffers { e with locks, counters } { w with link, current := none } := by
  refine ⟨⟨h.keys, hfree, h.backed.learns hlearns, ?_⟩, ?_⟩
  · intro i x hx
    exact (h.buffers i x hx).later fun _ => .refl _
  · exact buffers_of_idle (hlink.honest hw.honest) rfl (hlink.writes hw.honest.rollback)

/-- A commit raises known versions as far as it raises the versions of its rows. -/
theorem Buffers.backed_settled (hw : e.Buffers w) (hsorted : Ordered.Sorted placeLt
      w.link.connection.writes) (ht : w.current = some t) (hbacked : e.Backed locks)
    {writes : Place → Bool}
    (hwrites : ∀ p, writes p = true → ∃ row, w.link.connection.pending? p = some row)
    {settled : LockTable} (hcached : ∀ p, settled.cached? p =
      raisedAll (if writes p then (locks.cached? p).map (· + 1) else locks.cached? p) t.written p)
    (hrows : ∀ p, e'.store.row? p = (e.store.writeAll w.link.connection.writes).row? p) :
    e'.Backed settled := by
  intro p v hv
  have hpending : ∀ row, w.link.connection.pending? p = some row →
      e'.committed? p = some (((e.store.row? p).getD {}).version + 1) := by
    intro row hrow
    rw [committed?, hrows, Store.row?_writeAll hsorted.nodup_keys,
      show w.link.connection.writes.lookup p = some row from hrow]
    rfl
  rw [hcached p] at hv
  rcases mem_raisedAll hv with hknown | hwritten
  · cases hlocked : writes p with
    | false =>
        rw [hlocked, if_neg Bool.false_ne_true] at hknown
        refine hbacked.later ?_ p v hknown
        intro q
        rw [hrows]
        exact Store.precedes_writeAll e.store w.link.connection.writes q
    | true =>
        rw [hlocked, if_pos rfl] at hknown
        obtain ⟨k, hk, rfl⟩ := Option.map_eq_some_iff.1 hknown
        obtain ⟨c, hc, hle⟩ := hbacked p k hk
        obtain ⟨r, hr, rfl⟩ := Option.map_eq_some_iff.1 hc
        obtain ⟨row, hrow⟩ := hwrites p hlocked
        refine ⟨_, hpending row hrow, ?_⟩
        rw [hr]
        exact Nat.succ_le_succ hle
  · obtain ⟨row, hrow, rfl⟩ := hw.written t ht (p, v) hwritten
    exact ⟨_, hpending row hrow, hw.ahead p row hrow⟩

/-- A transaction that comes to the store is applied there or withdrawn. -/
theorem Trailing.conclude (h : e.Trailing) (hw : e.Buffers w)
    (htidy : w.Tidy e.workload.relations) (ht : w.current = some t)
    (hfit : locks.Fit e.workload.relations) (hlearns : Learns e.locks locks e.committed?)
    {writes : Place → Bool} (hguarded : Guarded locks guard writes)
    (hwrites : ∀ p, writes p = true → ∃ row, w.link.connection.pending? p = some row)
    (unavailable : Bool) {result : Except Fault Unit}
    (hconclude : { e with locks }.concludeDuring w t guard unavailable = (result, e₁, w₁)) :
    e₁.Trailing ∧ e₁.Buffers w₁ := by
  rcases { e with locks }.concludeDuring_cases w t guard unavailable with
    ⟨f, -, hfailed⟩ | happlied
  · cases hfailed.symm.trans hconclude
    obtain ⟨-, hfree, hcached⟩ := hguarded.givenBack_eq hfit
    refine h.withdraw hw w.link.emptied_rollback hfree ?_ (e.counters.finish false)
    intro p
    rw [hcached]
    exact hlearns p
  · obtain ⟨locks', hsettled, -, hfree, hcached⟩ :=
      hguarded.settled_eq hfit (htidy.within t ht).written
    simp only [hsettled] at happlied
    cases happlied.symm.trans hconclude
    refine ⟨⟨?_, hfree, ?_, ?_⟩, ?_⟩
    · exact (congrArg Store.keys (Store.writeAll_eq _ _)).trans h.keys
    · exact hw.backed_settled htidy.sorted ht (h.backed.learns hlearns) hwrites hcached
        fun _ => rfl
    · intro i x hx
      exact (h.buffers i x hx).later
        (Store.precedes_writeAll e.store w.link.connection.writes)
    · exact buffers_of_idle ⟨hw.honest.reported, hw.honest.gate, hw.honest.rollback⟩ rfl rfl

/-- Whatever the store does during a commit, it ends with no version known that is not committed. -/
theorem Trailing.commitDuring (h : e.Trailing) (hs : e.Steady) (hw : e.Buffers w)
    (htidy : w.Tidy e.workload.relations) (ht : w.current = some t) (down : Nat → Bool)
    {result : Except Fault Unit} (hcommit : e.commitDuring w t down = (result, e₁, w₁)) :
    e₁.Trailing ∧ e₁.Buffers w₁ := by
  cases hd : e.barrier.required.discipline? with
  | none =>
      simp only [Engine.commitDuring, hd] at hcommit
      exact h.conclude hw htidy ht hs.whole.fit (fun _ => .inl rfl) (.unchecked h.free)
        (fun _ hp => absurd hp Bool.false_ne_true) (down 0) hcommit
  | some d =>
      have hscreened := lockAndValidateDuring_inv (w := w) hs.whole
        ((htidy.within t ht).obligations d) down
      have hwhole := hs.whole.of_reaches (e.reaches_lockAndValidateDuring w t d down)
      simp only [Engine.commitDuring, hd] at hcommit
      generalize e.lockAndValidateDuring w t d down = x at hscreened hwhole hcommit
      cases hscreened with
      | passed locks hbeside hlearns =>
          refine h.conclude hw htidy ht hwhole.fit hlearns
            (.held _ (h.free.heldBy_of_beside hbeside) (LockPlan.nodup_places_ofObligations _)) ?_
            _ hcommit
          intro p hp
          obtain ⟨o, ho, rfl, hwrite⟩ := LockPlan.writes_ofObligations.1 hp
          exact hw.obligations t ht d o ho hwrite
      | turnedAway f locks counters hhold hlearns _ _ =>
          have hfree : locks.Free := fun p => (congrFun hhold p).trans (h.free p)
          cases hcommit
          exact h.withdraw hw w.link.emptied_rollback hfree hlearns (counters.finish false)

theorem Trailing.startCommitDuring (h : e.Trailing) (hs : e.Steady) (hw : e.Buffers w)
    (htidy : w.Tidy e.workload.relations) (down : Nat → Bool) (downAtBoundary : Bool) :
    (e.startCommitDuring w down downAtBoundary).2.Trailing := by
  rcases e.startCommitDuring_cases w down downAtBoundary with
    ⟨-, hstarted⟩ | ⟨t, result, e₁, w₁, ht, hcommit, hstarted⟩
  · rw [hstarted]
    exact h.cross hw (passBoundaryWhen_crossed ..)
  · rw [hstarted]
    obtain ⟨htrailing, hbuffers⟩ := h.commitDuring hs hw htidy ht down hcommit
    exact htrailing.cross hbuffers (passBoundaryWhen_crossed ..)

end Commit

section Calls

/-- A call that ends a transaction. -/
theorem Trailing.start (h : e.Trailing) (hs : e.Steady) (id : Nat) (call : EndCall) :
    (e.start id call).2.Trailing := by
  cases hw : e.worker? id with
  | none =>
      rw [start_of_none hw]
      exact h
  | some w =>
      have hbuffers := h.buffers id w hw
      cases call with
      | commit =>
          rw [start_commit hw, ← startCommitDuring_const hbuffers.honest.gate]
          exact h.startCommitDuring hs hbuffers (hs.tidy id w hw) _ _
      | rollback =>
          rw [start_rollback hw]
          rcases startRollback_inv e w with ⟨-, hrollback⟩ | ⟨t, -, hrollback⟩
          · rw [hrollback]
            exact h.cross hbuffers (passBoundary_crossed e w .rollback (.ok ()))
          · obtain ⟨htrailing, hbuffers'⟩ := h.withdraw hbuffers w.link.emptied_rollback h.free
              (fun _ => .inl rfl) (e.counters.finish false)
            rw [hrollback]
            exact htrailing.cross hbuffers' (passBoundary_crossed ..)

theorem Trailing.resume (h : e.Trailing) (id : Nat) : (e.resume id).2.Trailing := by
  rcases e.resume_inv id with ⟨w, call, result, hw, -, hresume⟩ | ⟨-, hresume⟩
  · obtain ⟨boundary, -, hleaving⟩ := leave_inv (Prod.eta (e.leave w call result)).symm
    rw [hresume]
    exact h.cross (h.buffers id w hw) hleaving.crossed
  · rw [hresume]
    exact h

theorem Trailing.connect (h : e.Trailing) (id : Nat) : (e.connect id [] none).2.Trailing := by
  have hconnecting := e.connecting_connect id none
  generalize (e.connect id [] none).2 = e' at hconnecting
  cases hconnecting with
  | refused f _ => exact h.congr rfl rfl rfl rfl rfl
  | denied start barrier _ => exact h.congr rfl rfl rfl rfl rfl
  | joined start barrier levels _ =>
      refine Trailing.put (h.congr rfl rfl rfl rfl rfl) ?_
      exact buffers_of_idle ⟨rfl, rfl, List.not_mem_nil⟩ rfl rfl

theorem Trailing.close (h : e.Trailing) (id : Nat) : (e.close id).2.Trailing := by
  obtain ⟨-, hclose⟩ | ⟨w, -, hclose⟩ := e.close_inv id
  · rw [hclose]
    exact h
  · rw [hclose]
    refine ⟨h.keys, h.free, h.backed.later fun _ => .refl _, fun i x hx => ?_⟩
    exact (h.buffers i x (worker?_of_without hx)).later fun _ => .refl _

/-- A row that is committed from outside is ahead of what is known of it. -/
theorem Trailing.seed (h : e.Trailing) (place : Place) (value : Value) :
    Trailing { e with store := (e.store.seed place value).2 } := by
  have hlater : ∀ p, Store.Precedes (e.store.row? p) ((e.store.write place value).row? p) :=
    fun p => e.store.precedes_write place p value
  refine ⟨h.keys, h.free, h.backed.later hlater, ?_⟩
  intro i x hx
  exact (h.buffers i x hx).later hlater

theorem Trailing.fail (h : e.Trailing) (id : Nat) (calls : List StoreCall) :
    (e.fail id calls).Trailing := by
  simp only [Engine.fail]
  cases hw : e.worker? id with
  | none => exact h
  | some w =>
      have hbuffers := h.buffers id w hw
      refine h.put ⟨⟨hbuffers.honest.reported, hbuffers.honest.gate, ?_⟩, hbuffers.ahead,
        hbuffers.obligations, hbuffers.written⟩
      intro hmem
      have hne := (List.mem_filter.1 hmem).2
      cases hne

end Calls

section Execute

variable {q : ReadyStatement} {args : List Value} {outcome : Outcome} {link : Link}

/-- What a statement leaves with its connection: rows that were buffered keep their versions, and
a write buffers its row with the version that it is told. -/
structure Buffered (e : Engine) (l : Link) (q : ReadyStatement) (place : Place) (outcome : Outcome)
    (connection : Connection) : Prop where
  kept : ∀ p row, l.connection.pending? p = some row →
    ∃ row', connection.pending? p = some row' ∧ row'.version = row.version
  ahead : ∀ p row, connection.pending? p = some row → l.connection.pending? p = some row ∨
    (∃ old, l.connection.pending? p = some old ∧ row.version = old.version) ∨
      row.version = ((e.store.row? p).getD {}).version + 1
  told : q.statement.kind.isWrite = true →
    ∃ row, connection.pending? place = some row ∧ outcome.version = some row.version

theorem buffered_of_execute {l : Link} (hl : l.reported = none)
    (h : l.execute e.store q.statement args = .ok (outcome, link)) :
    ∃ place connection, e.store.placeOf q.statement args = .ok place ∧
      link = { l with connection } ∧ e.Buffered l q place outcome connection := by
  obtain ⟨-, o, connection, hexec, rfl, rfl⟩ := Link.execute_eq_ok.1 h
  obtain ⟨-, place, hplace, hdone⟩ := Connection.execute_eq_ok.1 hexec
  refine ⟨place, connection, hplace, rfl, ?_⟩
  cases hkind : q.statement.kind.isWrite with
  | false =>
      rw [hkind, if_neg Bool.false_ne_true] at hdone
      obtain rfl := congrArg Prod.snd hdone
      refine ⟨fun p row hrow => ⟨row, hrow, rfl⟩, fun p row hrow => .inl hrow, ?_⟩
      intro hwrite
      rw [hkind] at hwrite
      cases hwrite
  | true =>
      rw [if_pos hkind] at hdone
      obtain rfl := congrArg Prod.fst hdone
      obtain rfl := congrArg Prod.snd hdone
      have hpending := fun p => Connection.pending?_write l.connection e.store place p
        (q.statement.writtenValue args)
      refine ⟨?_, ?_, ?_⟩
      · intro p row hrow
        rw [hpending]
        split
        · rename_i hp
          rw [← hp, hrow]
          exact ⟨_, rfl, rfl⟩
        · exact ⟨row, hrow, rfl⟩
      · intro p row hrow
        rw [hpending] at hrow
        split at hrow
        · rename_i hp
          obtain rfl := Option.some.inj hrow
          rw [← hp]
          cases hold : l.connection.pending? p with
          | none => exact .inr (.inr rfl)
          | some old => exact .inr (.inl ⟨old, rfl, rfl⟩)
        · exact .inl hrow
      · intro _
        rw [hpending, if_pos rfl, Connection.write_outcome, hl]
        exact ⟨_, rfl, rfl⟩

/-- A statement that is answered leaves its write with the connection, if it is one, and records
it at the row where it is buffered. -/
theorem Buffers.answered (h : e.Buffers w) (hkeys : e.store.keys = e.keys)
    (ht : w.current = some t) {key : Option RowKey}
    (hkey : ∀ k, key = some k → ∃ columns, q.statement.resolve args = .ok columns ∧
      e.keys q.statement.relation columns = .ok k)
    (hexec : w.link.execute e.store q.statement args = .ok (outcome, link)) :
    e.Buffers { w with
      link, current := some (key.elim t fun k => t.record q k outcome.version) } := by
  obtain ⟨place, connection, hplace, rfl, hbuffered⟩ :=
    buffered_of_execute h.honest.reported hexec
  have hrow : ∀ k, key = some k → place = (q.statement.relation, k) := by
    intro k hk
    obtain ⟨columns, hresolve, hnumber⟩ := hkey k hk
    simp only [Store.placeOf, hresolve, hkeys, hnumber, bind, Except.bind, pure,
      Except.pure] at hplace
    exact (Except.ok.inj hplace).symm
  refine ⟨⟨h.honest.reported, h.honest.gate, h.honest.rollback⟩, ?_, ?_, ?_⟩
  · intro p row hpending
    rcases hbuffered.ahead p row hpending with hold | ⟨old, hold, hversion⟩ | hversion
    · exact h.ahead p row hold
    · rw [hversion]
      exact h.ahead p old hold
    · exact Nat.le_of_eq hversion
  · intro t' ht' d o ho hwrite
    have hold : o ∈ t.obligations.under d → ∃ row, connection.pending? o.place = some row := by
      intro ho
      obtain ⟨old, hold⟩ := h.obligations t ht d o ho hwrite
      obtain ⟨row, hpending, -⟩ := hbuffered.kept o.place old hold
      exact ⟨row, hpending⟩
    obtain rfl := Option.some.inj ht'
    cases key with
    | none => exact hold ho
    | some k =>
        rcases Obligations.mem_under_record ho with ho | rfl
        · exact hold ho
        · obtain ⟨row, hpending, -⟩ := hbuffered.told hwrite
          rw [hrow k rfl] at hpending
          exact ⟨row, hpending⟩
  · intro t' ht' x hx
    have hold : x ∈ t.written →
        ∃ row, connection.pending? x.1 = some row ∧ row.version = x.2 := by
      intro hx
      obtain ⟨old, hold, hversion⟩ := h.written t ht x hx
      obtain ⟨row, hpending, hsame⟩ := hbuffered.kept x.1 old hold
      exact ⟨row, hpending, hsame.trans hversion⟩
    obtain rfl := Option.some.inj ht'
    cases key with
    | none => exact hold hx
    | some k =>
        simp only [Option.elim_some, OpenTransaction.record] at hx
        split at hx
        · rename_i v hwrite hv
          rcases List.mem_append.1 hx with hx | hx
          · exact hold hx
          · obtain ⟨row, hpending, hversion⟩ := hbuffered.told hwrite
            rw [List.mem_singleton.1 hx, ← hrow k rfl]
            exact ⟨row, hpending, Option.some.inj (hversion.symm.trans hv)⟩
        · exact hold hx

/-- A transaction that begins has buffered nothing of its own. -/
theorem Trailing.begin (h : e.Trailing) (hw : e.Buffers w) (template : Transaction) :
    (e.begun w template).Trailing ∧ (e.begun w template).keys = e.keys ∧
      (e.begun w template).Buffers (e.beginner w template) ∧
      (e.beginner w template).current = some (e.opened w template).1 := by
  obtain ⟨hcurrent, hbegun, hbeginner⟩ | ⟨-, hopened, hbegun, hbeginner⟩ := opened_eq e w template
  · rw [hbegun, hbeginner]
    exact ⟨h, rfl, hw, hcurrent⟩
  · rw [hbegun, hbeginner]
    refine ⟨h.congr rfl rfl rfl rfl rfl, rfl, ⟨hw.honest, hw.ahead, ?_, ?_⟩, rfl⟩
    · intro t ht d o ho
      rw [← Option.some.inj ht, hopened] at ho
      cases d <;> cases ho
    · intro t ht x hx
      rw [← Option.some.inj ht, hopened] at hx
      cases hx

theorem Trailing.execute (h : e.Trailing) (id : Nat) (name : String) (index : Nat)
    (args : List Value) : (e.execute id name index args).2.Trailing := by
  cases hw : e.worker? id with
  | none =>
      rw [execute_of_none hw]
      exact h
  | some w =>
      have hexecuted := execute_inv hw name index args
      generalize e.execute id name index args = x at hexecuted
      obtain ⟨answer, e'⟩ := x
      cases hexecuted with
      | refused f hready => exact h
      | keyless q f hready hkey =>
          obtain ⟨hbegun, -, hbeginner, -⟩ := h.begin (h.buffers id w hw) q.template
          exact hbegun.put hbeginner
      | lost q key f hready hkey hexec =>
          obtain ⟨hbegun, -, hbeginner, -⟩ := h.begin (h.buffers id w hw) q.template
          obtain ⟨htrailing, hbuffers⟩ := hbegun.withdraw hbeginner
            (e.beginner w q.template).link.emptied_rollback hbegun.free (fun _ => .inl rfl)
            ((e.begun w q.template).counters.finish false)
          exact htrailing.put hbuffers
      | answered q key outcome link hready hkey hexec =>
          obtain ⟨hbegun, hkeys, hbeginner, hcurrent⟩ := h.begin (h.buffers id w hw) q.template
          refine hbegun.put (hbeginner.answered hbegun.keys hcurrent ?_ hexec)
          rintro k rfl
          rw [hkeys]
          exact keyIn_of_ready hready hkeys hkey

end Execute

/-- Every turn without overlapping commits keeps known versions behind the store. -/
theorem Trailing.turn (h : e.Trailing) (hs : e.Steady) {turn : Turn} (hturn : turn.Apart) :
    (e.turn turn).2.Trailing := by
  cases turn with
  | commit id down downAtBoundary =>
      rcases e.turn_commit_cases id down downAtBoundary with
        ⟨-, hturn⟩ | ⟨w, hw, -, -, hturn⟩
      · rw [hturn]
        exact h
      · rw [hturn]
        exact h.startCommitDuring hs (h.buffers id w hw) (hs.tidy id w hw) down downAtBoundary
  | plain happening =>
      cases happening with
      | connectGated id permits => cases hturn
      | openGate id => cases hturn
      | lockCall c => cases hturn
      | action a =>
          change (e.take a).2.Trailing
          cases a with
          | connect id => exact h.connect id
          | execute id name index args =>
              simp only [take]
              split
              · exact h
              · exact h.execute id name index args
          | finish id call =>
              simp only [take]
              split
              · exact h
              · exact h.start hs id call
          | close id =>
              simp only [take]
              split
              · exact h
              · exact h.close id
          | request target => exact h.congr rfl rfl rfl rfl rfl
          | seed place value => exact h.seed place value
          | outage on => exact h.congr rfl rfl rfl rfl rfl
          | fail id calls => exact h.fail id calls
          | beginRequest =>
              simp only [take]
              split
              · exact h.congr rfl rfl rfl rfl rfl
              · exact h
          | advance =>
              simp only [take]
              split
              · exact h.congr rfl rfl rfl rfl rfl
              · exact h
          | resume id =>
              simp only [take]
              split
              · have hengine : (e.withStopped (e.barrier.stopped.erase id)).Trailing :=
                  h.congr rfl rfl rfl rfl rfl
                exact hengine.resume id
              · exact h

theorem Trailing.through (h : e.Trailing) (hs : e.Steady) {turns : List Turn}
    (hturns : ∀ turn ∈ turns, turn.Apart) : (e.through turns).Trailing := by
  have hkeep : ∀ turn ∈ turns, ∀ e : Engine, e.Trailing ∧ e.Steady →
      (e.turn turn).2.Trailing ∧ (e.turn turn).2.Steady :=
    fun turn hmem _ h => ⟨h.1.turn h.2 (hturns turn hmem), h.2.turn turn⟩
  exact (through_induction hkeep ⟨h, hs⟩).1

theorem trailing_create {workload : Workload} {config : EngineConfig} {keys : KeyRule}
    (h : create workload config keys = .ok e) : e.Trailing := by
  obtain ⟨protocol, locks, -, hlocks, rfl⟩ := create_eq_ok h
  obtain ⟨-, hfree, hcached⟩ := LockTable.create_eq_ok hlocks
  refine ⟨rfl, hfree, ?_, ?_⟩
  · intro p v hv
    rw [hcached] at hv
    cases hv
  · intro id w hw
    cases hw

/-- In every run in which commits do not overlap, a version that the lock table knows is one that
the store has reached: the row is there, and its version is at least the known one. -/
theorem cached_le_committed {workload : Workload} {config : EngineConfig} {keys : KeyRule}
    (hcreate : create workload config keys = .ok e) {turns : List Turn}
    (hturns : ∀ turn ∈ turns, turn.Apart) {relation : String} {key : RowKey} {v : Nat}
    (hknown : (e.through turns).locks.version? relation key = .ok (some v)) :
    ∃ row, (e.through turns).store.row? (relation, key) = some row ∧ v ≤ row.version := by
  have htrailing := (trailing_create hcreate).through (steady_create hcreate) hturns
  obtain ⟨c, hc, hle⟩ := htrailing.backed (relation, key) v
    (LockTable.version?_eq_ok (p := (relation, key)) hknown).symm
  obtain ⟨row, hrow, rfl⟩ := Option.map_eq_some_iff.1 hc
  exact ⟨row, hrow, hle⟩

/-- A transaction is lost because the store does not answer while it is validated. Run again, it
commits. -/
def bumpedAgain : List Turn :=
  [.plain (.action (.seed ("x", 1) (.int 10))), .plain (.action (.connect 1)),
    .plain (.action (.execute 1 "bump" 0 [.int 1])),
    .plain (.action (.execute 1 "bump" 1 [.int 1, .int 11])),
    .commit 1 (fun k => k == 0) false,
    .plain (.action (.execute 1 "bump" 0 [.int 1])),
    .plain (.action (.execute 1 "bump" 1 [.int 1, .int 11])),
    .commit 1 (fun _ => false) true]

theorem bumpedAgain_cached_le :
    ∃ e, create bumping { initialProtocol := "si", sampleEvery := 1 } RowKey.standard = .ok e ∧
      (∀ turn ∈ bumpedAgain, turn.Apart) ∧
      (e.through bumpedAgain).counters.aborted = 1 ∧
      (e.through bumpedAgain).locks.version? "x" 1 = .ok (some 2) ∧
      ∃ row, (e.through bumpedAgain).store.row? ("x", 1) = some row ∧ 2 ≤ row.version := by
  obtain ⟨e, hcreate, haborted, hknown⟩ := exists_create bumping
    { initialProtocol := "si", sampleEvery := 1 } RowKey.standard
    (fun e => (e.through bumpedAgain).counters.aborted = 1 ∧
      ((e.through bumpedAgain).locks.version? "x" 1).toOption = some (some 2)) (by decide +kernel)
  have hturns : ∀ turn ∈ bumpedAgain, turn.Apart := by decide
  have hversion : (e.through bumpedAgain).locks.version? "x" 1 = .ok (some 2) := by
    cases h : (e.through bumpedAgain).locks.version? "x" 1 with
    | error f =>
        rw [h] at hknown
        cases hknown
    | ok v =>
        rw [h] at hknown
        rw [Option.some.inj hknown]
  exact ⟨e, hcreate, hturns, haborted, hversion, cached_le_committed hcreate hturns hversion⟩

end Engine

end LiveIsolation
