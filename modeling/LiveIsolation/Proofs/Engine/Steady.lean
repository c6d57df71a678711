import LiveIsolation.Proofs.Engine.Execute
import LiveIsolation.Proofs.Engine.Outage

/-!
# Engines among other commits

While a worker acts, the commits of others may be under way: they stand at a gate with their
locks, or hold some rows of the lock table already. All that can happen to an engine
(`Happening`) keeps its lock table whole, and an open transaction asks only for relations of the
workload and buffers each row once (`Engine.Steady`).
-/

namespace LiveIsolation

/-- What can happen to an engine when the calls of workers overlap. -/
inductive Happening where
  | action (a : EngineAction)
  /-- A worker is connected over a link that lets some commits through and holds up the next. -/
  | connectGated (worker permits : Nat)
  /-- One more commit of a worker may pass its gate. -/
  | openGate (worker : Nat)
  /-- Somebody asks the lock table. -/
  | lockCall (c : LockCall)

/-- The obligations and the written rows of a transaction are in known relations. -/
structure OpenTransaction.Within (t : OpenTransaction) (known : List String) : Prop where
  obligations : ∀ d, ∀ o ∈ t.obligations.under d, o.relation ∈ known
  written : ∀ x ∈ t.written, x.1.1 ∈ known

theorem Obligations.mem_under_record {os : Obligations} {o x : Obligation}
    {readCommitted snapshot : Bool} {d : Discipline}
    (h : x ∈ (os.record o readCommitted snapshot).under d) : x ∈ os.under d ∨ x = o := by
  have hgrown : ∀ asked : Bool,
      x ∈ (if asked then Obligation.record (os.under d) o else os.under d) →
        x ∈ os.under d ∨ x = o := by
    intro asked hx
    cases asked with
    | true => exact (Obligation.mem_record.1 hx).imp_right And.left
    | false => exact .inl hx
  rw [under_record] at h
  exact hgrown _ h

/-- What a statement leaves with its transaction is in the relation of the statement. -/
theorem OpenTransaction.Within.record {t : OpenTransaction} {known : List String}
    (h : t.Within known) {q : ReadyStatement} (hq : q.statement.relation ∈ known) (key : RowKey)
    (version : Option Nat) : (t.record q key version).Within known where
  obligations d o ho := by
    rcases Obligations.mem_under_record ho with ho | rfl
    · exact h.obligations d o ho
    · exact hq
  written x hx := by
    simp only [OpenTransaction.record] at hx
    split at hx
    · rcases List.mem_append.1 hx with hx | hx
      · exact h.written x hx
      · rw [List.mem_singleton.1 hx]
        exact hq
    · exact h.written x hx

/-- A worker can roll back, has buffered each row once, and has opened a transaction in known
relations if it has opened one. -/
structure Worker.Tidy (w : Worker) (known : List String) : Prop where
  rollback : StoreCall.rollback ∉ w.link.failing
  sorted : Ordered.Sorted placeLt w.link.connection.writes
  within : ∀ t, w.current = some t → t.Within known

/-- A worker whose transaction has ended has nothing buffered. -/
theorem Worker.Tidy.ended {w : Worker} {known : List String} (h : w.Tidy known) :
    Worker.Tidy { w with link.connection.writes := [], current := none } known where
  rollback := h.rollback
  sorted := List.Pairwise.nil
  within := nofun

namespace Engine

variable {e e' : Engine} {w : Worker} {t : OpenTransaction} {known : List String}

/-- What comes of something that happens. -/
def happen (e : Engine) : Happening → Engine
  | .action a => (e.take a).2
  | .connectGated id permits => (e.connect id [] (some permits)).2
  | .openGate id => (e.openGate id).2
  | .lockCall c => { e with locks := (e.locks.serve c).2 }

/-- The locks could have come about, and every worker is tidy. -/
structure Steady (e : Engine) : Prop where
  whole : e.locks.Whole e.workload.relations
  tidy : ∀ id w, e.worker? id = some w → w.Tidy e.workload.relations

/-- The locks have served some calls, and the workers have not changed. -/
theorem Steady.congr (h : e.Steady) (hworkload : e'.workload = e.workload)
    (hlocks : e.locks.Reaches e'.locks) (hworkers : e'.workers = e.workers) : e'.Steady where
  whole := by
    rw [hworkload]
    exact h.whole.of_reaches hlocks
  tidy id w hw := by
    rw [worker?, hworkers] at hw
    rw [hworkload]
    exact h.tidy id w hw

theorem Steady.put (h : e.Steady) (hw : w.Tidy e.workload.relations) : (e.put w).Steady where
  whole := h.whole
  tidy id x hx := by
    rw [worker?_put] at hx
    split at hx
    · rw [← Option.some.inj hx]
      exact hw
    · exact h.tidy id x hx

/-- A worker whose transaction has ended, or never began, crosses its boundary. -/
theorem Steady.cross (h : e.Steady) (hw : w.Tidy e.workload.relations)
    (hcrossed : e.Crossed w e') : e'.Steady := by
  obtain ⟨barrier, levels, protocol, blocked, rfl, -⟩ := hcrossed
  have hengine : Steady { e with barrier, store.levels := levels } :=
    h.congr rfl (.refl _) rfl
  exact hengine.put (w := { w with protocol, blocked }) ⟨hw.rollback, hw.sorted, hw.within⟩

theorem Steady.passBoundary (h : e.Steady) (hw : w.Tidy e.workload.relations) (call : EndCall)
    (result : Except Fault Unit) : (e.passBoundary w call result).2.Steady :=
  h.cross hw (passBoundary_crossed e w call result)

section Commit

/-- The locks of written rows are asked one after another. -/
theorem reaches_refresh (locks : LockTable) (written : List (Place × Nat)) :
    locks.Reaches (refresh locks written).2 := by
  induction written generalizing locks with
  | nil => exact .refl locks
  | cons x rest ih =>
      obtain ⟨⟨relation, key⟩, version⟩ := x
      have hfirst := locks.reaches_updateVersion relation key version
      simp only [refresh]
      generalize locks.updateVersion relation key version = y at hfirst
      obtain ⟨answer, locks'⟩ := y
      cases answer with
      | ok u => exact hfirst.trans (ih locks')
      | error f => exact hfirst

theorem reaches_givenBack (locks : LockTable) (guard : Option Guard) :
    locks.Reaches (givenBack locks guard) := by
  cases guard with
  | none => exact .refl locks
  | some g => exact locks.reaches_releaseAll false g.held

theorem reaches_settled (locks : LockTable) (guard : Option Guard)
    (written : List (Place × Nat)) : locks.Reaches (settled locks guard written).2 := by
  cases guard with
  | none => exact reaches_refresh locks written
  | some g => exact (locks.reaches_releaseAll true g.held).trans (reaches_refresh _ written)

/-- Whatever locking and validation come to, the table has served some calls. -/
theorem reaches_lockAndValidate (e : Engine) (w : Worker) (t : OpenTransaction) (d : Discipline) :
    e.locks.Reaches (e.lockAndValidate w t d).2.locks := by
  rw [← lockAndValidateDuring_const]
  exact e.reaches_lockAndValidateDuring w t d _

/-- A commit that has failed is given up. -/
theorem Steady.abort (h : e.Steady) (hw : w.Tidy e.workload.relations) (f : Fault) :
    (e.abort w f).2.Steady := by
  have hengine : Steady { e with counters := e.counters.finish false } :=
    h.congr rfl (.refl _) rfl
  simp only [Engine.abort, abandon_eq]
  rw [Link.rollback_eq hw.rollback]
  exact hengine.passBoundary hw.ended .commit (.error f)

/-- The guard may have been made in any earlier state: nothing is asked of what it holds. -/
theorem Steady.commitStore (h : e.Steady) (hw : w.Tidy e.workload.relations)
    (t : OpenTransaction) (guard : Option Guard) : (e.commitStore w t guard).2.Steady := by
  simp only [Engine.commitStore]
  cases hcommit : w.link.commit e.store with
  | error f =>
      have hback : Steady { e with locks := givenBack e.locks guard } :=
        h.congr rfl (reaches_givenBack e.locks guard) rfl
      exact hback.abort hw f
  | ok done =>
      obtain ⟨link, store⟩ := done
      obtain ⟨-, -, rfl, -⟩ := Link.commit_eq_ok.1 hcommit
      have hdone : ∀ counters, Steady { e with
          store, counters, locks := (settled e.locks guard t.written).2 } :=
        fun _ => h.congr rfl (reaches_settled e.locks guard t.written) rfl
      cases guard with
      | none => exact (hdone _).passBoundary hw.ended .commit _
      | some g => exact (hdone _).passBoundary hw.ended .commit _

/-- A transaction that may commit is committed now or stands at the gate of its link. -/
theorem Steady.comeToGate (h : e.Steady) (hw : w.Tidy e.workload.relations)
    (t : OpenTransaction) (guard : Option Guard) : (e.comeToGate w t guard).2.Steady := by
  simp only [Engine.comeToGate]
  split
  · rename_i link hpass
    have hlink : ∃ permits, link = { w.link with permits } := by
      simp only [Link.passGate?] at hpass
      split at hpass
      · exact ⟨_, (Option.some.inj hpass).symm⟩
      · cases hpass
      · exact ⟨_, (Option.some.inj hpass).symm⟩
    obtain ⟨permits, rfl⟩ := hlink
    exact h.commitStore (w := { w with link.permits := permits })
      ⟨hw.rollback, hw.sorted, hw.within⟩ t guard
  · exact h.put ⟨hw.rollback, hw.sorted, hw.within⟩

theorem Steady.startCommit (h : e.Steady) (hw : w.Tidy e.workload.relations) :
    (e.startCommit w).2.Steady := by
  simp only [Engine.startCommit]
  split
  · exact h.passBoundary hw .commit (.ok ())
  · rename_i t _
    split
    · exact h.comeToGate hw t none
    · rename_i d _
      have hreaches := e.reaches_lockAndValidate w t d
      obtain ⟨locks, counters, he⟩ := lockAndValidate_eq e w t d
      generalize e.lockAndValidate w t d = x at hreaches he
      obtain ⟨answer, e₁⟩ := x
      obtain rfl : e₁ = _ := he
      have hsteady : Steady { e with locks, counters } := h.congr rfl hreaches rfl
      cases answer with
      | ok guard => exact hsteady.comeToGate hw t (some guard)
      | error f => exact hsteady.abort hw f

end Commit

/-- A call that ends a transaction. -/
theorem Steady.start (h : e.Steady) (id : Nat) (call : EndCall) : (e.start id call).2.Steady := by
  cases hw : e.worker? id with
  | none =>
      rw [start_of_none hw]
      exact h
  | some w =>
      have htidy := h.tidy id w hw
      cases call with
      | commit =>
          rw [start_commit hw]
          exact h.startCommit htidy
      | rollback =>
          rw [start_rollback hw]
          rcases startRollback_inv e w with ⟨-, hrollback⟩ | ⟨t, -, hrollback⟩
          · rw [hrollback]
            exact h.passBoundary htidy .rollback (.ok ())
          · have hengine : Steady { e with counters := e.counters.finish false } :=
              h.congr rfl (.refl _) rfl
            rw [hrollback, Link.rollback_eq htidy.rollback]
            exact hengine.passBoundary htidy.ended .rollback _

/-- A worker that was stopped at its boundary goes on. -/
theorem Steady.resume (h : e.Steady) (id : Nat) : (e.resume id).2.Steady := by
  rcases e.resume_inv id with ⟨w, call, result, hw, -, hresume⟩ | ⟨-, hresume⟩
  · obtain ⟨boundary, -, hleaving⟩ := leave_inv (Prod.eta (e.leave w call result)).symm
    rw [hresume]
    exact h.cross (h.tidy id w hw) hleaving.crossed
  · rw [hresume]
    exact h

/-- The commit of a worker may pass its gate. -/
theorem Steady.openGate (h : e.Steady) (id : Nat) : (e.openGate id).2.Steady := by
  simp only [Engine.openGate]
  split
  · exact h
  · rename_i w hw
    have htidy := h.tidy id w hw
    split
    · exact h.comeToGate (w := { w with link := w.link.openGate, blocked := none })
        ⟨htidy.rollback, htidy.sorted, htidy.within⟩ _ _
    · exact h.put ⟨htidy.rollback, htidy.sorted, htidy.within⟩

/-- A worker is connected over a link with a gate or without one. -/
theorem Steady.connect (h : e.Steady) (id : Nat) (permits : Option Nat) :
    (e.connect id [] permits).2.Steady := by
  have hconnecting := e.connecting_connect id permits
  generalize (e.connect id [] permits).2 = e' at hconnecting
  cases hconnecting with
  | refused f _ => exact h.congr rfl (.refl _) rfl
  | denied start barrier _ => exact h.congr rfl (.refl _) rfl
  | joined start barrier levels _ =>
      refine Steady.put (h.congr rfl (.refl _) rfl) ?_
      exact ⟨List.not_mem_nil, List.Pairwise.nil, nofun⟩

theorem Steady.close (h : e.Steady) (id : Nat) : (e.close id).2.Steady := by
  obtain ⟨-, hclose⟩ | ⟨w, -, hclose⟩ := e.close_inv id
  · rw [hclose]
    exact h
  · rw [hclose]
    exact ⟨h.whole, fun i x hx => h.tidy i x (worker?_of_without hx)⟩

theorem Steady.fail (h : e.Steady) (id : Nat) (calls : List StoreCall) :
    (e.fail id calls).Steady := by
  simp only [Engine.fail]
  cases hw : e.worker? id with
  | none => exact h
  | some w =>
      have htidy := h.tidy id w hw
      refine h.put ⟨?_, htidy.sorted, htidy.within⟩
      intro hmem
      have hne := (List.mem_filter.1 hmem).2
      cases hne

section Execute

/-- A statement that is ready is one of the workload. -/
theorem statement_of_ready {name : String} {index : Nat} {args : List Value} {q : ReadyStatement}
    (h : e.ready w name index args = .ok q) :
    ∃ template ∈ e.workload.templates, q.statement ∈ template.statements := by
  obtain ⟨htemplate, hstatement, -⟩ := ready_inv h
  exact ⟨q.template, List.mem_of_find?_eq_some htemplate, List.mem_of_getElem? hstatement⟩

theorem relation_of_ready {name : String} {index : Nat} {args : List Value} {q : ReadyStatement}
    (h : e.ready w name index args = .ok q) :
    q.statement.relation ∈ e.workload.relations := by
  obtain ⟨template, htemplate, hstatement⟩ := statement_of_ready h
  exact Workload.mem_relations.2 ⟨template, htemplate, q.statement, hstatement, rfl⟩

/-- A transaction that begins asks for nothing yet. -/
theorem Steady.begin (h : e.Steady) (hw : w.Tidy e.workload.relations) (template : Transaction) :
    (e.begun w template).Steady ∧ (e.begun w template).workload = e.workload ∧
      (e.beginner w template).Tidy e.workload.relations ∧
      (e.opened w template).1.Within e.workload.relations := by
  obtain ⟨hcurrent, hbegun, hbeginner⟩ | ⟨-, hopened, hbegun, hbeginner⟩ := opened_eq e w template
  · rw [hbegun, hbeginner]
    exact ⟨h, rfl, hw, hw.within _ hcurrent⟩
  · have hwithin : (e.opened w template).1.Within e.workload.relations := by
      rw [hopened]
      constructor
      · intro d o ho
        cases d <;> cases ho
      · intro x hx
        cases hx
    rw [hbegun, hbeginner]
    refine ⟨h.congr rfl (.refl _) rfl, rfl, ⟨hw.rollback, hw.sorted, ?_⟩, hwithin⟩
    intro t ht
    exact Option.some.inj ht ▸ hwithin

/-- A statement buffers its row once, whatever has been buffered before. -/
theorem sorted_execute {l m : Link} {s : Store} {statement : Statement} {args : List Value}
    {outcome : Outcome} (hsorted : Ordered.Sorted placeLt l.connection.writes)
    (h : l.execute s statement args = .ok (outcome, m)) :
    Ordered.Sorted placeLt m.connection.writes ∧ m.failing = l.failing := by
  obtain ⟨-, o, c, hc, -, rfl⟩ := Link.execute_eq_ok.1 h
  obtain ⟨-, p, -, hdone⟩ := Connection.execute_eq_ok.1 hc
  refine ⟨?_, rfl⟩
  split at hdone
  · obtain rfl := congrArg Prod.snd hdone
    exact Connection.sorted_write hsorted s p _
  · obtain rfl := congrArg Prod.snd hdone
    exact hsorted

theorem Steady.execute (h : e.Steady) (id : Nat) (name : String) (index : Nat)
    (args : List Value) : (e.execute id name index args).2.Steady := by
  cases hw : e.worker? id with
  | none =>
      rw [execute_of_none hw]
      exact h
  | some w =>
      have hexecuted := execute_inv hw name index args
      generalize e.execute id name index args = x at hexecuted
      obtain ⟨answer, e'⟩ := x
      cases hexecuted with
      | refused f hready => exact h
      | keyless q f hready hkey =>
          obtain ⟨hbegun, hworkload, hbeginner, -⟩ := h.begin (h.tidy id w hw) q.template
          exact hbegun.put (hworkload ▸ hbeginner)
      | lost q key f hready hkey hexec =>
          obtain ⟨hbegun, hworkload, hbeginner, -⟩ := h.begin (h.tidy id w hw) q.template
          rw [abandon_eq, Link.rollback_eq hbeginner.rollback]
          exact Steady.put (hbegun.congr rfl (.refl _) rfl) (hworkload ▸ hbeginner.ended)
      | answered q key outcome link hready hkey hexec =>
          obtain ⟨hbegun, hworkload, hbeginner, hopened⟩ := h.begin (h.tidy id w hw) q.template
          obtain ⟨hsorted, hfailing⟩ := sorted_execute hbeginner.sorted hexec
          refine hbegun.put ⟨hfailing ▸ hbeginner.rollback, hsorted, ?_⟩
          rintro t ht
          rw [hworkload, ← Option.some.inj ht]
          cases key with
          | none => exact hopened
          | some k => exact hopened.record (relation_of_ready hready) k outcome.version

end Execute

/-- Whatever happens, an engine stays steady. -/
theorem Steady.happen (h : e.Steady) (happening : Happening) : (e.happen happening).Steady := by
  cases happening with
  | connectGated id permits => exact h.connect id (some permits)
  | openGate id => exact h.openGate id
  | lockCall c => exact h.congr rfl (e.locks.reaches_serve c) rfl
  | action a =>
      cases a with
      | connect id => exact h.connect id none
      | execute id name index args =>
          simp only [Engine.happen, take]
          split
          · exact h
          · exact h.execute id name index args
      | finish id call =>
          simp only [Engine.happen, take]
          split
          · exact h
          · exact h.start id call
      | close id =>
          simp only [Engine.happen, take]
          split
          · exact h
          · exact h.close id
      | request target => exact h.congr rfl (.refl _) rfl
      | seed place value => exact h.congr rfl (.refl _) rfl
      | outage on => exact h.congr rfl (.refl _) rfl
      | fail id calls => exact h.fail id calls
      | beginRequest =>
          simp only [Engine.happen, take]
          split
          · exact h.congr rfl (.refl _) rfl
          · exact h
      | advance =>
          simp only [Engine.happen, take]
          split
          · exact h.congr rfl (.refl _) rfl
          · exact h
      | resume id =>
          simp only [Engine.happen, take]
          split
          · have hengine : (e.withStopped (e.barrier.stopped.erase id)).Steady :=
              h.congr rfl (.refl _) rfl
            exact hengine.resume id
          · exact h

theorem steady_create {workload : Workload} {config : EngineConfig} {keys : KeyRule}
    (h : create workload config keys = .ok e) : e.Steady := by
  obtain ⟨protocol, locks, -, hlocks, rfl⟩ := create_eq_ok h
  refine ⟨LockTable.whole_create hlocks, ?_⟩
  intro id w hw
  cases hw

end Engine

end LiveIsolation
