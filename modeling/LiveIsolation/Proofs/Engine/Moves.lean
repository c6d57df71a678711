import LiveIsolation.Proofs.Engine.SoundCalls

/-!
# How an engine moves

Only a statement makes a transaction longer, and only a successful commit changes rows from
inside. All other turns at most end transactions, and at most make the committed versions of
rows known. Every run of a new engine in which commits stay apart therefore comes to a sound one.
-/

namespace LiveIsolation

/-- The worker whose commit a turn may bring to the store. -/
def Turn.committer? : Turn → Option Nat
  | .plain (.action (.finish id .commit)) => some id
  | .plain (.openGate id) => some id
  | .plain _ => none
  | .commit id _ _ => some id

namespace Engine

variable {e e' e₁ : Engine} {w w₁ : Worker} {t : OpenTransaction} {logs : Nat → Log} {id : Nat}

/-- No transaction is open. -/
def Quiet (e : Engine) : Prop := ∀ id w, e.worker? id = some w → w.current = none

/-- Neither rows nor open transactions have changed, though transactions may have ended. -/
structure Still (e e' : Engine) : Prop where
  workload : e'.workload = e.workload
  config : e'.config = e.config
  keys : e'.keys = e.keys
  rows : ∀ p, e'.store.row? p = e.store.row? p
  commits : e'.store.commits = e.store.commits
  learns : Learns e.locks e'.locks e.committed?
  locks : e.Quiet → e'.locks = e.locks
  barrier : e.barrier.Validates → e'.barrier.Validates
  opened : ∀ id w' t, e'.worker? id = some w' → w'.current = some t →
    ∃ w, e.worker? id = some w ∧ w.current = some t

theorem Still.refl (e : Engine) : e.Still e where
  workload := rfl
  config := rfl
  keys := rfl
  rows _ := rfl
  commits := rfl
  learns _ := .inl rfl
  locks _ := rfl
  barrier := id
  opened _ w' _ hw' ht := ⟨w', hw', ht⟩

/-- The barrier, the counters, the connections and the state of the store do not matter. -/
theorem still_of_data (e : Engine) {barrier : Barrier}
    (hbarrier : e.barrier.Validates → barrier.Validates) (counters : Counters)
    (levels : List (Nat × IsolationLevel)) (next : Nat) (unavailable : Bool) :
    Still e { e with
      barrier, counters
      store := { e.store with levels, nextConnection := next, unavailable } } where
  workload := rfl
  config := rfl
  keys := rfl
  rows _ := rfl
  commits := rfl
  learns _ := .inl rfl
  locks _ := rfl
  barrier := hbarrier
  opened _ w' _ hw' ht := ⟨w', hw', ht⟩

/-- No transaction has begun. -/
theorem Still.quiet (h : e.Still e') (hq : e.Quiet) : e'.Quiet := by
  intro i w hw
  cases hcurrent : w.current with
  | none => rfl
  | some t =>
      obtain ⟨x, hx, hxt⟩ := h.opened i w t hw hcurrent
      rw [hq i x hx] at hxt
      cases hxt

theorem Still.trans (h : e.Still e₁) (h' : e₁.Still e') : e.Still e' where
  workload := h'.workload.trans h.workload
  config := h'.config.trans h.config
  keys := h'.keys.trans h.keys
  rows p := (h'.rows p).trans (h.rows p)
  commits := h'.commits.trans h.commits
  learns := by
    have hsame : e₁.committed? = e.committed? := by
      funext p
      rw [committed?, h.rows]
      rfl
    exact LockTable.learns_trans h.learns (hsame ▸ h'.learns)
  locks hq := (h'.locks (h.quiet hq)).trans (h.locks hq)
  barrier hb := h'.barrier (h.barrier hb)
  opened i w' t hw' ht := by
    obtain ⟨w, hw, hwt⟩ := h'.opened i w' t hw' ht
    exact h.opened i w t hw hwt

/-- A worker is exchanged for one that has no other transaction open. -/
theorem Still.put (h : e.Still e')
    (hcurrent : ∀ t, w.current = some t → ∃ x, e.worker? w.id = some x ∧ x.current = some t) :
    e.Still (e'.put w) where
  workload := h.workload
  config := h.config
  keys := h.keys
  rows := h.rows
  commits := h.commits
  learns := h.learns
  locks := h.locks
  barrier := h.barrier
  opened i w' t hw' ht := by
    rw [worker?_put] at hw'
    split at hw'
    · rename_i hi
      rw [Option.some.injEq] at hw'
      subst hw'
      rw [hi]
      exact hcurrent t ht
    · exact h.opened i w' t hw' ht

/-- A worker that crosses its boundary without a transaction changes nothing else. -/
theorem Still.cross (h : e.Still e₁) (hcurrent : w₁.current = none)
    (hcrossed : e₁.Crossed w₁ e') : e.Still e' := by
  obtain ⟨barrier, levels, protocol, blocked, rfl, hkeeps⟩ := hcrossed
  have hstill : e.Still { e₁ with barrier, store.levels := levels } :=
    ⟨h.workload, h.config, h.keys, h.rows, h.commits, h.learns, h.locks,
      fun hb => (h.barrier hb).keeps hkeeps, h.opened⟩
  apply hstill.put
  intro t ht
  change w₁.current = some t at ht
  rw [hcurrent] at ht
  cases ht

theorem connect_still (e : Engine) (id : Nat) : e.Still (e.connect id [] none).2 := by
  have hconnecting := e.connecting_connect id none
  generalize (e.connect id [] none).2 = e' at hconnecting
  cases hconnecting with
  | refused f _ =>
      exact e.still_of_data (fun h => h) e.counters e.store.levels _ e.store.unavailable
  | denied start barrier hregister =>
      have hkeeps : e.barrier.Keeps barrier := Barrier.keeps_register hregister
      refine e.still_of_data (fun h => h.keeps ?_) e.counters e.store.levels _ e.store.unavailable
      exact ⟨hkeeps.current, hkeeps.next, hkeeps.queue⟩
  | joined start barrier levels hregister =>
      have hkeeps : e.barrier.Keeps barrier := Barrier.keeps_register hregister
      apply (e.still_of_data (fun h => h.keeps hkeeps) e.counters _ _ e.store.unavailable).put
      intro t ht
      cases ht

theorem close_still (e : Engine) (id : Nat) : e.Still (e.close id).2 := by
  obtain ⟨-, hclose⟩ | ⟨w, -, hclose⟩ := e.close_inv id
  · rw [hclose]
    exact .refl e
  · rw [hclose]
    exact ⟨rfl, rfl, rfl, fun _ => rfl, rfl, fun _ => .inl rfl, fun _ => rfl,
      fun h => ⟨h.current, h.next, h.queue⟩,
      fun i w' t hw' ht => ⟨w', worker?_of_without hw', ht⟩⟩

theorem startRollback_still (e : Engine) (id : Nat) : e.Still (e.start id .rollback).2 := by
  cases hw : e.worker? id with
  | none =>
      rw [start_of_none hw]
      exact .refl e
  | some w =>
      rw [start_rollback hw]
      rcases startRollback_inv e w with ⟨hcurrent, hrollback⟩ | ⟨t, hcurrent, hrollback⟩
      · rw [hrollback]
        exact (Still.refl e).cross hcurrent (passBoundary_crossed e w .rollback (.ok ()))
      · rw [hrollback]
        refine Still.cross ?_ rfl (passBoundary_crossed _ _ .rollback _)
        exact e.still_of_data (fun h => h) _ e.store.levels e.store.nextConnection
          e.store.unavailable

theorem Sound.resume_still (h : e.Sound logs) (id : Nat) : e.Still (e.resume id).2 := by
  rcases e.resume_inv id with ⟨w, call, result, hw, hblocked, hresume⟩ | ⟨-, hresume⟩
  · obtain ⟨boundary, -, hleaving⟩ := leave_inv (Prod.eta (e.leave w call result)).symm
    rw [hresume]
    exact (Still.refl e).cross ((h.fine id w hw).current_of_blocked hblocked) hleaving.crossed
  · rw [hresume]
    exact .refl e

theorem fail_still (hid : ∀ w, e.worker? id = some w → w.id = id) (calls : List StoreCall) :
    e.Still (e.fail id calls) := by
  simp only [Engine.fail]
  split
  · rename_i w hw
    apply (Still.refl e).put
    intro t ht
    exact ⟨w, (hid w hw).symm ▸ hw, ht⟩
  · exact .refl e

/-- What the successful commit of a transaction does. -/
structure Committed (e : Engine) (w : Worker) (t : OpenTransaction) (e' : Engine) : Prop where
  workload : e'.workload = e.workload
  config : e'.config = e.config
  keys : e'.keys = e.keys
  passes : e.Passes t
  rows : ∀ p, e'.store.row? p = (e.store.writeAll w.link.connection.writes).row? p
  commits : e'.store.commits = e.store.commits + 1
  cached : ∃ locks, Learns e.locks locks e.committed? ∧ ∀ p, e'.locks.cached? p =
    raisedAll (if e.lockedWrites t p then (locks.cached? p).map (· + 1) else locks.cached? p)
      t.written p
  barrier : e.barrier.Validates → e'.barrier.Validates
  opened : ∀ i w' t', e'.worker? i = some w' → w'.current = some t' →
    i ≠ w.id ∧ e.worker? i = some w'

/-- However the store comes and goes, a commit either changes no row or is a successful one. -/
theorem Sound.startCommitDuring_inv (h : e.Sound logs) (hw : e.worker? id = some w)
    (down : Nat → Bool) (downAtBoundary : Bool) :
    e.Still (e.startCommitDuring w down downAtBoundary).2 ∨
      ∃ t, w.current = some t ∧ e.Committed w t (e.startCommitDuring w down downAtBoundary).2 := by
  rcases e.startCommitDuring_cases w down downAtBoundary with
    ⟨hcurrent, hstarted⟩ | ⟨t, result, e₁, w₁, hcurrent, hcommit, hstarted⟩
  · rw [hstarted]
    exact .inl ((Still.refl e).cross hcurrent
      (passBoundaryWhen_crossed e w .commit (.ok ()) downAtBoundary))
  · rw [hstarted]
    have hopened := (h.fine id w hw).opened t hcurrent
    have hended := hopened.commitDuring_ended h.ground hcommit
    have hending := commitDuring_ends e w t down hcommit
    obtain ⟨hworkload, hconfig, hkeys, -⟩ := hending.settings
    obtain ⟨hworkers, hbarrier, -, hid, -⟩ := hending.leaves
    obtain ⟨hnone, -⟩ := hending.emptied
    have hcrossed := passBoundaryWhen_crossed e₁ w₁ .commit result downAtBoundary
    have hnoisy : ¬e.Quiet := by
      intro hquiet
      rw [hquiet id w hw] at hcurrent
      cases hcurrent
    have hstill : e₁.store = e.store → Learns e.locks e₁.locks e.committed? → e.Still e₁ := by
      intro hstore hlearns
      refine ⟨hworkload, hconfig, hkeys, ?_, ?_, hlearns, fun hq => absurd hq hnoisy, ?_, ?_⟩
      · intro p
        rw [hstore]
      · rw [hstore]
      · intro hb
        rwa [hbarrier]
      · intro i w' t' hw' ht'
        rw [worker?, hworkers] at hw'
        exact ⟨w', hw', ht'⟩
    cases hended with
    | rejected found _ _ hstore _ _ hlearns =>
        exact .inl ((hstill hstore hlearns).cross hnone hcrossed)
    | failed f _ _ hstore _ _ hlearns =>
        exact .inl ((hstill hstore hlearns).cross hnone hcrossed)
    | committed locks _ hpasses hstore _ _ hlearns hcached =>
        refine .inr ⟨t, hcurrent, ?_⟩
        obtain ⟨barrier, levels, protocol, blocked, heq, hkeeps⟩ := hcrossed
        rw [heq]
        refine ⟨hworkload, hconfig, hkeys, hpasses, ?_, ?_, ⟨locks, hlearns, hcached⟩, ?_, ?_⟩
        · intro p
          change e₁.store.row? p = _
          rw [hstore]
          rfl
        · change e₁.store.commits = _
          rw [hstore]
        · intro hb
          exact (hbarrier ▸ hb).keeps hkeeps
        · intro i w' t' hw' ht'
          rw [worker?_put] at hw'
          split at hw'
          · rw [← Option.some.inj hw'] at ht'
            change w₁.current = some t' at ht'
            rw [hnone] at ht'
            cases ht'
          · rename_i hi
            refine ⟨fun he => hi (he.trans hid.symm), ?_⟩
            change e₁.worker? i = some w' at hw'
            rwa [worker?, hworkers] at hw'

/-- How a turn moves a sound engine. -/
inductive Moves (e : Engine) (logs : Nat → Log) : Turn → Engine → Prop where
  | still (turn : Turn) (e' : Engine) (hstill : e.Still e') (hsound : e'.Sound logs) :
    Moves e logs turn e'
  | stated (id : Nat) (name : String) (index : Nat) (args : List Value)
    (hidle : e.busy id = false) :
    Moves e logs (.plain (.action (.execute id name index args)))
      (e.execute id name index args).2
  | committed (turn : Turn) (id : Nat) (hturn : turn.committer? = some id) (w : Worker)
    (t : OpenTransaction) (e' : Engine) (hw : e.worker? id = some w)
    (hcurrent : w.current = some t) (hcommitted : e.Committed w t e') (hsound : e'.Sound logs) :
    Moves e logs turn e'
  | requested (target : Protocol) :
    Moves e logs (.plain (.action (.request target))) (e.requestSwitch target)
  | seeded (place : Place) (value : Value) :
    Moves e logs (.plain (.action (.seed place value)))
      { e with store := (e.store.seed place value).2 }

/-- A commit moves an engine, whatever the store does meanwhile. -/
theorem Sound.startCommitDuring_moves (h : e.Sound logs) {turn : Turn}
    (hturn : turn.committer? = some id) (hw : e.worker? id = some w) (down : Nat → Bool)
    (downAtBoundary : Bool) :
    e.Moves logs turn (e.startCommitDuring w down downAtBoundary).2 := by
  have hsound := h.startCommitDuring hw down downAtBoundary
  rcases h.startCommitDuring_inv hw down downAtBoundary with hstill | ⟨t, hcurrent, hcommitted⟩
  · exact .still _ _ hstill hsound
  · exact .committed turn id hturn w t _ hw hcurrent hcommitted hsound

theorem Sound.take_moves (h : e.Sound logs) (a : EngineAction) :
    e.Moves logs (.plain (.action a)) (e.take a).2 := by
  cases a with
  | connect id => exact .still _ _ (e.connect_still id) (h.connect id)
  | execute id name index args =>
      cases hbusy : e.busy id with
      | true =>
          rw [take_execute_of_busy hbusy]
          exact .still _ _ (.refl e) h
      | false =>
          rw [take_execute hbusy]
          exact .stated id name index args hbusy
  | finish id call =>
      unfold Engine.take
      dsimp only
      split
      · exact .still _ _ (.refl e) h
      · cases call with
        | rollback => exact .still _ _ (e.startRollback_still id) (h.start id .rollback)
        | commit =>
            cases hw : e.worker? id with
            | none =>
                rw [start_of_none hw]
                exact .still _ _ (.refl e) h
            | some w =>
                rw [start_commit hw, ← startCommitDuring_const (h.fine id w hw).honest.gate]
                exact h.startCommitDuring_moves rfl hw _ _
  | close id =>
      unfold Engine.take
      dsimp only
      split
      · exact .still _ _ (.refl e) h
      · exact .still _ _ (e.close_still id) (h.close id)
  | request target => exact .requested target
  | seed place value => exact .seeded place value
  | outage on =>
      refine .still _ _ ?_ ?_
      · exact e.still_of_data (fun h => h) e.counters e.store.levels e.store.nextConnection on
      · exact h.keep (h.ground.congr rfl rfl rfl rfl rfl) ⟨rfl, rfl, rfl, fun _ => .refl _⟩ rfl
  | fail id calls => exact .still _ _ (fail_still (h.id_eq id) calls) (h.fail id calls)
  | beginRequest =>
      unfold Engine.take
      dsimp only
      split
      · rename_i report barrier hbegin
        refine .still _ _ ?_ (h.withBarrier barrier e.store.levels e.store.nextConnection)
        exact e.still_of_data (fun h => h.begin? hbegin) e.counters e.store.levels
          e.store.nextConnection e.store.unavailable
      · exact .still _ _ (.refl e) h
  | advance =>
      unfold Engine.take
      dsimp only
      split
      · rename_i report barrier hadvance
        refine .still _ _ ?_ (h.withBarrier barrier e.store.levels e.store.nextConnection)
        exact e.still_of_data (fun h => h.advance? hadvance) e.counters e.store.levels
          e.store.nextConnection e.store.unavailable
      · exact .still _ _ (.refl e) h
  | resume id =>
      unfold Engine.take
      dsimp only
      split
      · have hstopped : (e.withStopped (e.barrier.stopped.erase id)).Sound logs :=
          h.withBarrier _ e.store.levels e.store.nextConnection
        have hkeeps : e.barrier.Keeps (e.withStopped (e.barrier.stopped.erase id)).barrier :=
          ⟨rfl, rfl, rfl⟩
        have hstill : e.Still (e.withStopped (e.barrier.stopped.erase id)) :=
          e.still_of_data (fun h => h.keeps hkeeps) e.counters e.store.levels
            e.store.nextConnection e.store.unavailable
        exact .still _ _ (hstill.trans (hstopped.resume_still id)) (hstopped.resume id)
      · exact .still _ _ (.refl e) h

/-- A turn in which commits stay apart moves an engine in one of these ways. -/
theorem Sound.turn_moves (h : e.Sound logs) {turn : Turn} (hturn : turn.Apart) :
    e.Moves logs turn (e.turn turn).2 := by
  cases turn with
  | plain happening =>
      cases happening with
      | action a => exact h.take_moves a
      | connectGated id permits => cases hturn
      | openGate id => cases hturn
      | lockCall c => cases hturn
  | commit id down downAtBoundary =>
      rcases e.turn_commit_cases id down downAtBoundary with
        ⟨-, hturn⟩ | ⟨w, hw, -, -, hturn⟩
      · rw [hturn]
        exact .still _ _ (.refl e) h
      · rw [hturn]
        exact h.startCommitDuring_moves rfl hw down downAtBoundary

/-- Every turn in which commits stay apart keeps an engine sound. -/
theorem Sound.turn (h : e.Sound logs) {turn : Turn} (hturn : turn.Apart) :
    ∃ logs', (e.turn turn).2.Sound logs' := by
  have hmoves := h.turn_moves hturn
  generalize (e.turn turn).2 = e' at hmoves
  cases hmoves with
  | still _ _ _ hsound => exact ⟨logs, hsound⟩
  | stated id name index args hidle =>
      obtain ⟨logs', -, hsound⟩ := h.execute hidle name index args
      exact ⟨logs', hsound⟩
  | committed _ _ _ _ _ _ _ _ _ hsound => exact ⟨logs, hsound⟩
  | requested target =>
      exact ⟨logs, h.withBarrier (e.barrier.request target) e.store.levels e.store.nextConnection⟩
  | seeded place value => exact ⟨logs, h.seed place value⟩

/-- A new engine is sound where every row has a number. -/
theorem sound_create {workload : Workload} {config : EngineConfig} {keys : KeyRule}
    (h : create workload config keys = .ok e) (hkeys : keys.Total) (logs : Nat → Log) :
    e.Sound logs := by
  obtain ⟨protocol, locks, -, hlocks, rfl⟩ := create_eq_ok h
  obtain ⟨hfit, hfree, hcached⟩ := LockTable.create_eq_ok hlocks
  refine ⟨⟨hkeys, rfl, hfit, hfree, ?_, ?_⟩, ?_, ?_⟩
  · intro p row hrow
    cases hrow
  · intro p v hv
    rw [hcached] at hv
    cases hv
  · intro id w hw
    cases hw
  · intro id w hw
    cases hw

/-- The workload and the configuration never change. -/
theorem Moves.settings (h : e.Sound logs) {turn : Turn} (hm : e.Moves logs turn e') :
    e'.workload = e.workload ∧ e'.config = e.config := by
  cases hm with
  | still _ _ hstill _ => exact ⟨hstill.workload, hstill.config⟩
  | stated id name index args _ =>
      obtain ⟨counters, next, workers, heq, -⟩ := e.execute_eq (h.id_eq id) name index args
      rw [heq]
      exact ⟨rfl, rfl⟩
  | committed _ _ _ _ _ _ _ _ hcommitted _ => exact ⟨hcommitted.workload, hcommitted.config⟩
  | requested target => exact ⟨rfl, rfl⟩
  | seeded place value => exact ⟨rfl, rfl⟩

/-- Turns in which commits stay apart keep an engine sound. -/
theorem Sound.through (h : e.Sound logs) {turns : List Turn}
    (hturns : ∀ turn ∈ turns, turn.Apart) :
    ∃ logs', (e.through turns).Sound logs' ∧ (e.through turns).workload = e.workload ∧
      (e.through turns).config = e.config := by
  refine through_induction (P := fun e' => ∃ logs', e'.Sound logs' ∧
    e'.workload = e.workload ∧ e'.config = e.config) ?_ ⟨logs, h, rfl, rfl⟩
  rintro turn hmem e' ⟨logs', h', hworkload, hconfig⟩
  obtain ⟨logs'', h''⟩ := h'.turn (hturns turn hmem)
  obtain ⟨hworkload', hconfig'⟩ := (h'.turn_moves (hturns turn hmem)).settings h'
  exact ⟨logs'', h'', hworkload'.trans hworkload, hconfig'.trans hconfig⟩

end Engine

end LiveIsolation
