import LiveIsolation.Proofs.Engine.Turn

/-!
# What open transactions go through

Whatever happens to an engine, a worker keeps its open transaction, ends it, begins one, or records
a statement of the workload with it (`Engine.Onward`). All but statements keep it with its number,
or end it (`Engine.Rests`). What holds of every transaction that begins, and is preserved by every
statement, therefore holds of all open transactions of all runs (`Engine.transactions_induction`).
-/

namespace LiveIsolation

namespace Engine

variable {e e' e₁ : Engine} {w w₁ w' : Worker} {id : Nat}

/-- What has become of the open transaction of a worker. -/
inductive Onward (e : Engine) (w : Worker) : Option OpenTransaction → Prop where
  | stays : Onward e w w.current
  | ends : Onward e w none
  | begins (name : String) (index : Nat) (args : List Value) (q : ReadyStatement)
    (hready : e.ready w name index args = .ok q) : Onward e w (some (e.opened w q.template).1)
  | records (name : String) (index : Nat) (args : List Value) (q : ReadyStatement)
    (key : RowKey) (version : Option Nat) (hready : e.ready w name index args = .ok q) :
    Onward e w (some ((e.opened w q.template).1.record q key version))

/-- A worker is new, or goes on from what it was. -/
inductive Career (e : Engine) (id : Nat) (w' : Worker) : Prop where
  | fresh (hid : w'.id = id) (hcurrent : w'.current = none)
  | onward (w : Worker) (hw : e.worker? id = some w) (hid : w'.id = w.id)
    (hcurrent : Onward e w w'.current)

/-- Every worker has the number that it is found under. -/
def Numbered (e : Engine) : Prop := ∀ id w, e.worker? id = some w → w.id = id

/-- Something has happened to an engine. -/
structure Ensues (e e' : Engine) : Prop where
  workload : e'.workload = e.workload
  workers : ∀ id w', e'.worker? id = some w' → Career e id w'

/-- Only data that concern no worker have changed. -/
theorem ensues_of_workers (hworkload : e'.workload = e.workload)
    (hworkers : e'.workers = e.workers) : e.Ensues e' where
  workload := hworkload
  workers id w' hw' := by
    rw [worker?, hworkers] at hw'
    exact .onward w' hw' rfl .stays

theorem Ensues.refl (e : Engine) : e.Ensues e := ensues_of_workers rfl rfl

theorem Ensues.put (h : e.Ensues e') (hw : Career e w.id w) : e.Ensues (e'.put w) where
  workload := h.workload
  workers i w' hw' := by
    rw [worker?_put] at hw'
    split at hw'
    · rename_i hi
      rw [hi, ← Option.some.inj hw']
      exact hw
    · exact h.workers i w' hw'

/-- Workers keep their numbers. -/
theorem Ensues.numbered (h : e.Ensues e') (hn : e.Numbered) : e'.Numbered := by
  intro i w' hw'
  cases h.workers i w' hw' with
  | fresh hid _ => exact hid
  | onward w hw hid _ => exact hid.trans (hn i w hw)

/-- A worker of an engine goes on. -/
theorem Numbered.career (hn : e.Numbered) (hw : e.worker? id = some w) (hid : w'.id = w.id)
    (hcurrent : Onward e w w'.current) : Career e w'.id w' := by
  refine .onward w ?_ hid hcurrent
  rw [hid, hn id w hw]
  exact hw

/-- The open transaction of a worker. -/
def current? (e : Engine) (id : Nat) : Option OpenTransaction := (e.worker? id).bind (·.current)

theorem current?_of_worker? (hw : e.worker? id = some w) : e.current? id = w.current := by
  rw [current?, hw, Option.bind_some]

theorem current?_put (e : Engine) (w : Worker) (id : Nat) :
    (e.put w).current? id = if id = w.id then w.current else e.current? id := by
  rw [current?, worker?_put]
  split
  · rfl
  · rfl

/-- The open transaction of a worker with its number. -/
def open? (e : Engine) (id : Nat) : Option (Nat × OpenTransaction) :=
  (e.worker? id).bind fun w => w.current.map (w.transaction, ·)

theorem open?_of_worker? (hw : e.worker? id = some w) :
    e.open? id = w.current.map (w.transaction, ·) := by
  rw [open?, hw, Option.bind_some]

theorem current?_eq (e : Engine) (id : Nat) : e.current? id = (e.open? id).map Prod.snd := by
  rw [current?, open?]
  cases e.worker? id with
  | none => rfl
  | some w => cases hw : w.current <;> simp [hw]

/-- No transaction begins or goes on: a worker keeps the one that it has open, or has none. -/
structure Idles (e e' : Engine) : Prop where
  workload : e'.workload = e.workload
  keys : e'.keys = e.keys
  numbered : e'.Numbered
  current : ∀ id t, e'.current? id = some t → e.current? id = some t

/-- No transaction begins or goes on, and neither the settings nor the rule of the store change. -/
structure Rests (e e' : Engine) : Prop where
  workload : e'.workload = e.workload
  config : e'.config = e.config
  keys : e'.keys = e.keys
  storeKeys : e'.store.keys = e.store.keys
  numbered : e'.Numbered
  kept : ∀ id x, e'.open? id = some x → e.open? id = some x

theorem Rests.idles (h : e.Rests e') : e.Idles e' where
  workload := h.workload
  keys := h.keys
  numbered := h.numbered
  current id t ht := by
    rw [current?_eq] at ht ⊢
    obtain ⟨x, hx, rfl⟩ := Option.map_eq_some_iff.1 ht
    rw [h.kept id x hx, Option.map_some]

section Rests

/-- Whatever keeps or ends open transactions is one of the things that can become of them. -/
theorem Idles.ensues (h : e.Idles e') (hn : e.Numbered) : e.Ensues e' where
  workload := h.workload
  workers id w' hw' := by
    have hid := h.numbered id w' hw'
    cases ht : w'.current with
    | none => exact .fresh hid ht
    | some t =>
        obtain ⟨w, hw, hcurrent⟩ :=
          Option.bind_eq_some_iff.1 (h.current id t ((current?_of_worker? hw').trans ht))
        refine .onward w hw (hid.trans (hn id w hw).symm) ?_
        rw [ht, ← hcurrent]
        exact .stays

/-- Only data that concern no worker have changed. -/
theorem Numbered.rests_of_workers (hn : e.Numbered) (hworkload : e'.workload = e.workload)
    (hconfig : e'.config = e.config) (hkeys : e'.keys = e.keys)
    (hstoreKeys : e'.store.keys = e.store.keys) (hworkers : e'.workers = e.workers) :
    e.Rests e' where
  workload := hworkload
  config := hconfig
  keys := hkeys
  storeKeys := hstoreKeys
  numbered id w hw := by
    rw [worker?, hworkers] at hw
    exact hn id w hw
  kept id x hx := by
    rw [open?, worker?, hworkers] at hx
    exact hx

theorem Numbered.rests_refl (hn : e.Numbered) : e.Rests e :=
  hn.rests_of_workers rfl rfl rfl rfl rfl

/-- A worker of an engine has its transaction still. -/
theorem Numbered.stays (hn : e.Numbered) (hw : e.worker? id = some w) (hid : w'.id = w.id)
    (hnumber : w'.transaction = w.transaction) (hcurrent : w'.current = w.current)
    (t : OpenTransaction) (ht : w'.current = some t) :
    e.open? w'.id = some (w'.transaction, t) := by
  rw [hid, hn id w hw, open?_of_worker? hw, ← hcurrent, ht, hnumber, Option.map_some]

theorem Rests.put (h : e.Rests e₁)
    (hw : ∀ t, w.current = some t → e.open? w.id = some (w.transaction, t)) :
    e.Rests (e₁.put w) where
  workload := h.workload
  config := h.config
  keys := h.keys
  storeKeys := h.storeKeys
  numbered i x hx := by
    rw [worker?_put] at hx
    split at hx
    · rename_i hi
      rw [hi, ← Option.some.inj hx]
    · exact h.numbered i x hx
  kept i x hx := by
    rw [open?, worker?_put] at hx
    split at hx
    · rename_i hi
      obtain ⟨t, ht, rfl⟩ := Option.map_eq_some_iff.1 hx
      rw [hi]
      exact hw t ht
    · exact h.kept i x hx

/-- A worker crosses its boundary. -/
theorem Rests.cross (h : e.Rests e₁)
    (hw : ∀ t, w.current = some t → e.open? w.id = some (w.transaction, t))
    (hcrossed : e₁.Crossed w e') : e.Rests e' := by
  obtain ⟨barrier, levels, protocol, blocked, rfl, -⟩ := hcrossed
  have hengine : e.Rests { e₁ with barrier, store.levels := levels } :=
    ⟨h.workload, h.config, h.keys, h.storeKeys, h.numbered, h.kept⟩
  exact hengine.put (w := { w with protocol, blocked }) hw

/-- The end of a commit. -/
theorem Numbered.rests_of_ending (hn : e.Numbered) {result : Except Fault Unit}
    (hending : Ending e w result e₁ w₁) : e.Rests e₁ ∧ w₁.current = none := by
  cases hending with
  | withdrawn f locks counters link _ _ _ => exact ⟨hn.rests_of_workers rfl rfl rfl rfl rfl, rfl⟩
  | applied _ locks counters link _ _ _ _ =>
      have hkeys : (e.store.writeAll w.link.connection.writes).keys = e.store.keys := by
        rw [Store.writeAll_eq]
      exact ⟨hn.rests_of_workers rfl rfl rfl hkeys rfl, rfl⟩

theorem Numbered.rests_commits (hn : e.Numbered) (hw : e.worker? id = some w)
    (hid : w'.id = w.id) (hnumber : w'.transaction = w.transaction)
    (hcurrent : w'.current = w.current) {x : List EngineEvent × Engine}
    (hx : Commits e w' x) : e.Rests x.2 := by
  cases hx with
  | ends result e₁ w₁ hending =>
      obtain ⟨hrests, hnone⟩ := hn.rests_of_ending hending
      refine hrests.cross (fun t ht => ?_) (passBoundary_crossed e₁ w₁ .commit result)
      rw [hnone] at ht
      cases ht
  | waits guard locks counters _ _ =>
      have hstill : e.Rests { e with locks, counters } := hn.rests_of_workers rfl rfl rfl rfl rfl
      exact hstill.put (hn.stays hw hid hnumber hcurrent)

/-- A call that ends a transaction. -/
theorem Numbered.rests_start (hn : e.Numbered) (id : Nat) (call : EndCall) :
    e.Rests (e.start id call).2 := by
  cases hw : e.worker? id with
  | none =>
      rw [start_of_none hw]
      exact hn.rests_refl
  | some w =>
      have hpasses : ∀ result, e.Rests (e.passBoundary w call result).2 := fun result =>
        hn.rests_refl.cross (hn.stays hw rfl rfl rfl) (passBoundary_crossed e w call result)
      cases call with
      | commit =>
          rw [start_commit hw]
          cases ht : w.current with
          | none =>
              have hidle : e.startCommit w = e.passBoundary w .commit (.ok ()) := by
                simp only [startCommit, ht]
              rw [hidle]
              exact hpasses (.ok ())
          | some t => exact hn.rests_commits hw rfl rfl rfl (startCommit_commits ht)
      | rollback =>
          rw [start_rollback hw]
          rcases startRollback_inv e w with ⟨-, hrollback⟩ | ⟨t, -, hrollback⟩
          · rw [hrollback]
            exact hpasses (.ok ())
          · rw [hrollback]
            refine Rests.cross ?_ ?_ (passBoundary_crossed _ _ .rollback _)
            · exact hn.rests_of_workers rfl rfl rfl rfl rfl
            · intro t' ht'
              cases ht'

theorem Numbered.rests_resume (hn : e.Numbered) (id : Nat) : e.Rests (e.resume id).2 := by
  rcases e.resume_inv id with ⟨w, call, result, hw, -, hresume⟩ | ⟨-, hresume⟩
  · obtain ⟨boundary, -, hleaving⟩ := leave_inv (Prod.eta (e.leave w call result)).symm
    rw [hresume]
    exact hn.rests_refl.cross (hn.stays hw rfl rfl rfl) hleaving.crossed
  · rw [hresume]
    exact hn.rests_refl

theorem Numbered.rests_connect (hn : e.Numbered) (id : Nat) (permits : Option Nat) :
    e.Rests (e.connect id [] permits).2 := by
  have hconnecting := e.connecting_connect id permits
  generalize (e.connect id [] permits).2 = e' at hconnecting
  cases hconnecting with
  | refused f _ => exact hn.rests_of_workers rfl rfl rfl rfl rfl
  | denied start barrier _ => exact hn.rests_of_workers rfl rfl rfl rfl rfl
  | joined start barrier levels _ =>
      refine Rests.put ?_ nofun
      exact hn.rests_of_workers rfl rfl rfl rfl rfl

theorem Numbered.rests_close (hn : e.Numbered) (id : Nat) : e.Rests (e.close id).2 := by
  obtain ⟨-, hclose⟩ | ⟨w, -, hclose⟩ := e.close_inv id
  · rw [hclose]
    exact hn.rests_refl
  · rw [hclose]
    refine ⟨rfl, rfl, rfl, rfl, fun i x hx => hn i x (worker?_of_without hx), fun i y hy => ?_⟩
    obtain ⟨x, hx, hopen⟩ := Option.bind_eq_some_iff.1 hy
    exact (open?_of_worker? (worker?_of_without hx)).trans hopen

theorem Numbered.rests_fail (hn : e.Numbered) (id : Nat) (calls : List StoreCall) :
    e.Rests (e.fail id calls) := by
  simp only [Engine.fail]
  split
  · rename_i w hw
    refine hn.rests_refl.put (hn.stays hw ?_ ?_ ?_)
    · rfl
    · rfl
    · rfl
  · exact hn.rests_refl

theorem Numbered.rests_openGate (hn : e.Numbered) (id : Nat) : e.Rests (e.openGate id).2 := by
  simp only [Engine.openGate]
  split
  · exact hn.rests_refl
  · rename_i w hw
    split
    · rename_i guard t _ ht
      have hcommits := comeToGate_commits e { w with link := w.link.openGate, blocked := none }
        e.locks e.counters rfl rfl t guard
      refine hn.rests_commits hw ?_ ?_ ?_ hcommits
      · rfl
      · rfl
      · rfl
    · refine hn.rests_refl.put (hn.stays hw ?_ ?_ ?_)
      · rfl
      · rfl
      · rfl

theorem Numbered.rests_startCommitDuring (hn : e.Numbered) (hw : e.worker? id = some w)
    (down : Nat → Bool) (downAtBoundary : Bool) :
    e.Rests (e.startCommitDuring w down downAtBoundary).2 := by
  rcases e.startCommitDuring_cases w down downAtBoundary with
    ⟨-, hstarted⟩ | ⟨t, result, e₁, w₁, -, hcommit, hstarted⟩
  · rw [hstarted]
    exact hn.rests_refl.cross (hn.stays hw rfl rfl rfl) (passBoundaryWhen_crossed ..)
  · rw [hstarted]
    obtain ⟨hrests, hnone⟩ := hn.rests_of_ending (commitDuring_ends e w t down hcommit)
    refine hrests.cross (fun t' ht' => ?_) (passBoundaryWhen_crossed ..)
    rw [hnone] at ht'
    cases ht'

theorem Numbered.rests_happen (hn : e.Numbered) {happening : Happening}
    (h : ∀ id name index args, happening ≠ .action (.execute id name index args)) :
    e.Rests (e.happen happening) := by
  cases happening with
  | connectGated id permits => exact hn.rests_connect id (some permits)
  | openGate id => exact hn.rests_openGate id
  | lockCall c => exact hn.rests_of_workers rfl rfl rfl rfl rfl
  | action a =>
      cases a with
      | connect id => exact hn.rests_connect id none
      | execute id name index args => exact absurd rfl (h id name index args)
      | finish id call =>
          simp only [happen, take]
          split
          · exact hn.rests_refl
          · exact hn.rests_start id call
      | close id =>
          simp only [happen, take]
          split
          · exact hn.rests_refl
          · exact hn.rests_close id
      | request target => exact hn.rests_of_workers rfl rfl rfl rfl rfl
      | seed place value => exact hn.rests_of_workers rfl rfl rfl rfl rfl
      | outage on => exact hn.rests_of_workers rfl rfl rfl rfl rfl
      | fail id calls => exact hn.rests_fail id calls
      | beginRequest =>
          simp only [happen, take]
          split
          · exact hn.rests_of_workers rfl rfl rfl rfl rfl
          · exact hn.rests_refl
      | advance =>
          simp only [happen, take]
          split
          · exact hn.rests_of_workers rfl rfl rfl rfl rfl
          · exact hn.rests_refl
      | resume id =>
          simp only [happen, take]
          split
          · rw [resume_withStopped]
            have hresumed := hn.rests_resume id
            exact ⟨hresumed.workload, hresumed.config, hresumed.keys, hresumed.storeKeys,
              hresumed.numbered, hresumed.kept⟩
          · exact hn.rests_refl

/-- Only in a turn that executes a statement does a transaction begin or go on. -/
theorem Numbered.rests_turn (hn : e.Numbered) {turn : Turn}
    (h : ∀ id name index args, turn ≠ .plain (.action (.execute id name index args))) :
    e.Rests (e.turn turn).2 := by
  cases turn with
  | plain happening =>
      rw [show (e.turn (.plain happening)).2 = e.happen happening from e.occur_snd happening]
      refine hn.rests_happen fun id name index args he => ?_
      exact h id name index args (he ▸ rfl)
  | commit id down downAtBoundary =>
      rcases e.turn_commit_cases id down downAtBoundary with
        ⟨-, hturn⟩ | ⟨w, hw, -, -, hturn⟩
      · rw [hturn]
        exact hn.rests_refl
      · rw [hturn]
        exact hn.rests_startCommitDuring hw down downAtBoundary

end Rests

/-- A transaction that begins changes neither the workload nor the other workers. -/
theorem begun_workers (e : Engine) (w : Worker) (template : Transaction) :
    (e.begun w template).workload = e.workload ∧ (e.begun w template).workers = e.workers ∧
      (e.beginner w template).id = w.id ∧
      (e.beginner w template).current = some (e.opened w template).1 := by
  obtain ⟨hcurrent, hbegun, hbeginner⟩ | ⟨-, -, hbegun, hbeginner⟩ := opened_eq e w template
  · rw [hbegun, hbeginner]
    exact ⟨rfl, rfl, rfl, hcurrent⟩
  · rw [hbegun, hbeginner]
    exact ⟨rfl, rfl, rfl, rfl⟩

theorem Numbered.ensues_execute (hn : e.Numbered) (id : Nat) (name : String) (index : Nat)
    (args : List Value) : e.Ensues (e.execute id name index args).2 := by
  cases hw : e.worker? id with
  | none =>
      rw [execute_of_none hw]
      exact .refl e
  | some w =>
      have hexecuted := execute_inv hw name index args
      generalize e.execute id name index args = x at hexecuted
      obtain ⟨answer, e'⟩ := x
      cases hexecuted with
      | refused f hready => exact .refl _
      | keyless q f hready hkey =>
          obtain ⟨hworkload, hworkers, hid, hcurrent⟩ := begun_workers e w q.template
          refine (ensues_of_workers hworkload hworkers).put (hn.career hw hid ?_)
          rw [hcurrent]
          exact .begins name index args q hready
      | lost q key f hready hkey hexec =>
          obtain ⟨hworkload, hworkers, hid, -⟩ := begun_workers e w q.template
          rw [abandon_eq]
          have hengine : e.Ensues { e.begun w q.template with
              counters := (e.begun w q.template).counters.finish false } :=
            ensues_of_workers hworkload hworkers
          refine hengine.put (hn.career hw hid ?_)
          exact .ends
      | answered q key outcome link hready hkey hexec =>
          obtain ⟨hworkload, hworkers, hid, -⟩ := begun_workers e w q.template
          refine (ensues_of_workers hworkload hworkers).put (hn.career hw hid ?_)
          cases key with
          | none => exact .begins name index args q hready
          | some k => exact .records name index args q k outcome.version hready

/-- By every turn, every worker is new or goes on from what it was. -/
theorem Numbered.ensues_turn (hn : e.Numbered) (turn : Turn) : e.Ensues (e.turn turn).2 := by
  by_cases hexecute : ∃ id name index args, turn = .plain (.action (.execute id name index args))
  · obtain ⟨id, name, index, args, rfl⟩ := hexecute
    simp only [Engine.turn, occur, take]
    split
    · exact .refl e
    · exact hn.ensues_execute id name index args
  · refine (hn.rests_turn fun id name index args he => ?_).idles.ensues hn
    exact hexecute ⟨id, name, index, args, he⟩

/-- What holds of every transaction that begins, and is preserved by every statement of the
workload, holds of all open transactions at all times. -/
theorem transactions_induction {workload : Workload} {config : EngineConfig} {keys : KeyRule}
    {P : OpenTransaction → Prop} (hbegin : ∀ template sampled, P { template, sampled })
    (hrecord : ∀ t q key version,
      (∃ template ∈ workload.templates, q.statement ∈ template.statements) → P t →
        P (t.record q key version))
    (hcreate : create workload config keys = .ok e) (turns : List Turn) {w : Worker}
    {t : OpenTransaction} (hw : (e.through turns).worker? id = some w)
    (ht : w.current = some t) : P t := by
  suffices hrun : (e.through turns).workload = workload ∧ (e.through turns).Numbered ∧
      ∀ id w t, (e.through turns).worker? id = some w → w.current = some t → P t from
    hrun.2.2 id w t hw ht
  clear hw ht
  refine through_induction (P := fun e => e.workload = workload ∧ e.Numbered ∧
    ∀ id w t, e.worker? id = some w → w.current = some t → P t) ?_ ?_
  · rintro turn - e ⟨hworkload, hn, h⟩
    have hensues := hn.ensues_turn turn
    refine ⟨hensues.workload.trans hworkload, hensues.numbered hn, ?_⟩
    intro i w' t' hw' ht'
    cases hensues.workers i w' hw' with
    | fresh _ hnone =>
        rw [hnone] at ht'
        cases ht'
    | onward w hw _ honward =>
        rw [ht'] at honward
        have hopened : ∀ template, P (e.opened w template).1 := by
          intro template
          obtain ⟨hcurrent, -, -⟩ | ⟨-, hopened, -, -⟩ := opened_eq e w template
          · exact h i w _ hw hcurrent
          · rw [hopened]
            exact hbegin _ _
        generalize hfound : some t' = found at honward
        cases honward with
        | stays => exact h i w t' hw hfound.symm
        | ends => cases hfound
        | begins name index args q _ =>
            rw [Option.some.inj hfound]
            exact hopened q.template
        | records name index args q key version hready =>
            rw [Option.some.inj hfound]
            exact hrecord _ q key version (hworkload ▸ statement_of_ready hready)
              (hopened q.template)
  · obtain ⟨protocol, locks, -, -, rfl⟩ := create_eq_ok hcreate
    refine ⟨rfl, ?_, ?_⟩
    · intro i x hx
      cases hx
    · intro i x u hx
      cases hx

end Engine

end LiveIsolation
