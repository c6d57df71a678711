import LiveIsolation.Proofs.Engine.Logged

/-!
# Calls keep an engine sound

Each call but a statement is followed from the cases of its end. The logs stay as they are: a log
that no longer has a transaction does not count.
-/

namespace LiveIsolation

namespace Engine

variable {e e' e₁ : Engine} {w w₁ : Worker} {t : OpenTransaction} {log : Log}
  {logs logs' : Nat → Log} {id : Nat}

/-- Nothing but the barrier, the levels of connections and their number changes. -/
theorem Sound.withBarrier (h : e.Sound logs) (barrier : Barrier)
    (levels : List (Nat × IsolationLevel)) (next : Nat) :
    Sound { e with barrier, store.levels := levels, store.nextConnection := next } logs :=
  h.keep (h.ground.congr rfl rfl rfl rfl rfl) ⟨rfl, rfl, rfl, fun _ => .refl _⟩ rfl

/-- A commit of a worker, while the store comes and goes. -/
theorem Sound.startCommitDuring (h : e.Sound logs) (hw : e.worker? id = some w)
    (down : Nat → Bool) (downAtBoundary : Bool) :
    (e.startCommitDuring w down downAtBoundary).2.Sound logs := by
  have hfine := h.fine id w hw
  rcases e.startCommitDuring_cases w down downAtBoundary with
    ⟨hcurrent, hstarted⟩ | ⟨t, result, e₁, w₁, hcurrent, hcommit, hstarted⟩
  · rw [hstarted]
    exact h.cross h.ground (.refl e) rfl hfine.honest hcurrent (hfine.idle hcurrent)
      (passBoundaryWhen_crossed e w .commit (.ok ()) downAtBoundary)
  · rw [hstarted]
    have hopened := hfine.opened t hcurrent
    have hending := commitDuring_ends e w t down hcommit
    obtain ⟨hworkload, hconfig, hkeys, -⟩ := hending.settings
    obtain ⟨hnone, hlink⟩ := hending.emptied
    obtain ⟨hground, hrows⟩ :=
      (hopened.commitDuring_ended h.ground hcommit).ground h.ground hopened hending
    exact h.cross hground ⟨hworkload, hconfig, hkeys, hrows⟩ hending.leaves.1
      (hlink.honest hfine.honest) hnone (hlink.writes hfine.honest.rollback)
      (passBoundaryWhen_crossed e₁ w₁ .commit result downAtBoundary)

/-- A call that ends a transaction. -/
theorem Sound.start (h : e.Sound logs) (id : Nat) (call : EndCall) :
    (e.start id call).2.Sound logs := by
  cases hw : e.worker? id with
  | none =>
      rw [start_of_none hw]
      exact h
  | some w =>
      have hfine := h.fine id w hw
      cases call with
      | commit =>
          rw [start_commit hw, ← startCommitDuring_const hfine.honest.gate]
          exact h.startCommitDuring hw _ _
      | rollback =>
          rw [start_rollback hw]
          rcases startRollback_inv e w with ⟨hcurrent, hrollback⟩ | ⟨t, hcurrent, hrollback⟩
          · rw [hrollback]
            exact h.cross h.ground (.refl e) rfl hfine.honest hcurrent (hfine.idle hcurrent)
              (passBoundary_crossed e w .rollback (.ok ()))
          · have hground : Ground { e with counters := e.counters.finish false } :=
              h.ground.congr rfl rfl rfl rfl rfl
            have ha : e.Advances { e with counters := e.counters.finish false } :=
              ⟨rfl, rfl, rfl, fun _ => .refl _⟩
            rw [hrollback, Link.rollback_eq hfine.honest.rollback]
            refine h.cross hground ha rfl ?_ ?_ ?_ (passBoundary_crossed _ _ .rollback _)
            · exact ⟨hfine.honest.reported, hfine.honest.gate, hfine.honest.rollback⟩
            · rfl
            · rfl

/-- A worker that was stopped at its boundary goes on. -/
theorem Sound.resume (h : e.Sound logs) (id : Nat) : (e.resume id).2.Sound logs := by
  rcases e.resume_inv id with ⟨w, call, result, hw, hblocked, hresume⟩ | ⟨-, hresume⟩
  · have hfine := h.fine id w hw
    have hcurrent := hfine.current_of_blocked hblocked
    obtain ⟨boundary, -, hleaving⟩ := leave_inv (Prod.eta (e.leave w call result)).symm
    rw [hresume]
    exact h.cross h.ground (.refl e) rfl hfine.honest hcurrent (hfine.idle hcurrent)
      hleaving.crossed
  · rw [hresume]
    exact h

/-- A worker is connected. -/
theorem Sound.connect (h : e.Sound logs) (id : Nat) : (e.connect id [] none).2.Sound logs := by
  have hfresh : Sound { e with store.nextConnection := e.store.nextConnection + 1 } logs :=
    h.withBarrier e.barrier e.store.levels (e.store.nextConnection + 1)
  have hconnecting := e.connecting_connect id none
  generalize (e.connect id [] none).2 = e' at hconnecting
  cases hconnecting with
  | refused f _ => exact hfresh
  | denied start barrier _ =>
      exact h.withBarrier (barrier.deregister id) e.store.levels (e.store.nextConnection + 1)
  | joined start barrier levels _ =>
      refine h.put (h.ground.congr rfl rfl rfl rfl rfl) ⟨rfl, rfl, rfl, fun _ => .refl _⟩ rfl ?_
        fun _ _ => rfl
      exact fine_of_idle (w := ⟨id, _, start, 0, none, none⟩) ⟨rfl, rfl, List.not_mem_nil⟩ rfl
        rfl _

/-- A worker is closed. -/
theorem Sound.close (h : e.Sound logs) (id : Nat) : (e.close id).2.Sound logs := by
  obtain ⟨-, hclose⟩ | ⟨w, -, hclose⟩ := e.close_inv id
  · rw [hclose]
    exact h
  · rw [hclose]
    refine ⟨h.ground.congr rfl rfl rfl rfl rfl, ?_, ?_⟩
    · intro i x hx
      exact h.id_eq i x (worker?_of_without hx)
    · intro i x hx
      exact (h.fine i x (worker?_of_without hx)).advance ⟨rfl, rfl, rfl, fun _ => .refl _⟩

/-- A row is committed from outside. -/
theorem Sound.seed (h : e.Sound logs) (place : Place) (value : Value) :
    Sound { e with store := (e.store.seed place value).2 } logs := by
  have hrows : ∀ p, Store.Precedes (e.store.row? p) ((e.store.write place value).row? p) :=
    fun p => e.store.precedes_write place p value
  refine h.keep ⟨h.ground.keys, h.ground.storeKeys, h.ground.fit, h.ground.free,
    h.ground.counted.write place value, ?_⟩ ⟨rfl, rfl, rfl, hrows⟩ rfl
  intro p v hv
  obtain ⟨c, hc, hle⟩ := h.ground.cached p v hv
  obtain ⟨r, hr, rfl⟩ := Option.map_eq_some_iff.1 hc
  obtain ⟨r', hr', hlater⟩ := hrows p r hr
  refine ⟨r'.version, ?_, Nat.le_trans hle ?_⟩
  · exact congrArg (Option.map (·.version)) hr'
  · rcases hlater with rfl | hlt
    · exact Nat.le_refl _
    · exact Nat.le_of_lt hlt

/-- A worker's link is told which calls fail. -/
theorem Sound.fail (h : e.Sound logs) (id : Nat) (calls : List StoreCall) :
    (e.fail id calls).Sound logs := by
  simp only [Engine.fail]
  cases hw : e.worker? id with
  | none => exact h
  | some w =>
      have hid : w.id = id := h.id_eq id w hw
      have hfine : e.Fine w (logs w.id) := hid ▸ h.fine id w hw
      refine h.put h.ground (.refl e) rfl ⟨?_, hfine.idle, ?_⟩ fun _ _ => rfl
      · refine ⟨hfine.honest.reported, hfine.honest.gate, ?_⟩
        intro hmem
        have hne := (List.mem_filter.1 hmem).2
        cases hne
      · intro t ht
        have hopened := hfine.opened t ht
        exact ⟨hopened.blocked, hopened.sampled, hopened.follows, hopened.sorted, hopened.own,
          hopened.statements, hopened.placed, hopened.older⟩

end Engine

end LiveIsolation
