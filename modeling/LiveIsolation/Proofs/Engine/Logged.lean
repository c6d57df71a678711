import LiveIsolation.Proofs.Engine.Sound

/-!
# Statements go into the log

A statement that is answered stands at the end of its transaction's log, and the answer is the
one that the log gives it. A statement that is not answered leaves the log as it is, or ends the
transaction with it.
-/

namespace LiveIsolation

namespace Engine

variable {e e' : Engine} {w : Worker} {t : OpenTransaction} {log : Log} {logs : Nat → Log}
  {id : Nat}

/-- The worker has a transaction open. -/
def isOpen (e : Engine) (id : Nat) : Bool := ((e.worker? id).bind (·.current)).isSome

/-- The log of a worker's open transaction; without one it is empty. -/
def openLog (e : Engine) (logs : Nat → Log) (id : Nat) : Log :=
  if e.isOpen id then logs id else []

theorem openLog_of_none (hw : e.worker? id = some w) (hcurrent : w.current = none) :
    e.openLog logs id = [] := by
  simp [openLog, isOpen, hw, hcurrent]

theorem openLog_of_some (hw : e.worker? id = some w) (hcurrent : w.current = some t) :
    e.openLog logs id = logs id := by
  simp [openLog, isOpen, hw, hcurrent]

/-- A log that does not count may be taken as empty. -/
theorem Sound.openLog (h : e.Sound logs) (id : Nat) :
    e.Sound (Function.update logs id (e.openLog logs id)) where
  ground := h.ground
  id_eq := h.id_eq
  fine i w hw := by
    rw [Function.update_apply]
    split
    · rename_i hi
      subst hi
      have hfine := h.fine i w hw
      cases hcurrent : w.current with
      | none => exact fine_of_idle hfine.honest hcurrent (hfine.idle hcurrent) _
      | some t =>
          rw [openLog_of_some hw hcurrent]
          exact hfine
    · exact h.fine i w hw

/-- A transaction that begins follows the empty log, and one that was open goes on. -/
theorem Sound.begin (h : e.Sound logs) (hw : e.worker? id = some w) (hfree : w.blocked = none)
    (template : Transaction) :
    (e.begun w template).Opened (e.beginner w template) (e.opened w template).1
      (e.openLog logs id) := by
  have hfine := h.fine id w hw
  rcases e.opened_eq w template with
    ⟨hcurrent, hbegun, hbeginner⟩ | ⟨hcurrent, ht, hbegun, hbeginner⟩
  · rw [hbegun, hbeginner, openLog_of_some hw hcurrent]
    exact hfine.opened _ hcurrent
  · have hwrites := hfine.idle hcurrent
    rw [hbegun, hbeginner, openLog_of_none hw hcurrent, ht]
    refine ⟨hfree, rfl, OpenTransaction.follows_nil _ _, ?_, ?_, ?_, ?_, ?_⟩
    · rw [hwrites]
      exact List.Pairwise.nil
    · intro p
      rw [Connection.pending?, hwrites]
      rfl
    · intro v hv
      cases hv
    · intro v hv
      cases hv
    · intro v hv
      cases hv

/-- A transaction that begins does not change how rows are numbered. -/
theorem keyIn_begun (e : Engine) (w : Worker) (template : Transaction) (t : OpenTransaction)
    (q : ReadyStatement) : (e.begun w template).keyIn t q = e.keyIn t q := by
  obtain ⟨counters, next, hbegun⟩ := e.begun_eq w template
  rw [hbegun]
  rfl

/-- The visit that a statement of the workload is when it is run now. -/
def visit (e : Engine) (template : Transaction) (index : Nat) (statement : Statement)
    (args : List Value) (columns : Columns) : Visit where
  ref := ⟨template.id, index⟩
  statement
  args
  key := e.keys.number statement.relation columns
  base := e.store.row? (statement.relation, e.keys.number statement.relation columns)

/-- The store runs a statement on the row that the engine locks for it. -/
theorem Ground.placeOf_eq (h : e.Ground) {v : Visit} (hv : v.Placed e.keys) :
    e.store.placeOf v.statement v.args = .ok v.place :=
  Visit.Placed.placeOf_eq (h.storeKeys ▸ hv) (h.storeKeys ▸ h.keys)

/-- An answered statement is the next one of its log. -/
theorem Opened.answer (h : e.Opened w t log) (hground : e.Ground) (hlink : w.link.Honest)
    {name : String} {index : Nat} {args : List Value} {columns : Columns} {statement : Statement}
    {outcome : Outcome} {link : Link} {template : Transaction} {key : Option RowKey}
    (htemplate : e.workload.find? name = some template)
    (hstatement : template.statements[index]? = some statement)
    (hcolumns : statement.resolve args = .ok columns)
    (hkey : e.keyIn t (readyStatement e.keys.number template index statement columns) = .ok key)
    (hexec : w.link.execute e.store statement args = .ok (outcome, link)) :
    outcome = log.outcome (e.visit template index statement args columns) ∧
      link.Honest ∧
      e.Opened
        { w with
          link
          current := some (key.elim t fun k =>
            t.record (readyStatement e.keys.number template index statement columns) k
              outcome.version) }
        (key.elim t fun k =>
          t.record (readyStatement e.keys.number template index statement columns) k
            outcome.version)
        (log ++ [e.visit template index statement args columns]) := by
  obtain ⟨-, o, c, hconnection, ho, rfl⟩ := Link.execute_eq_ok.1 hexec
  rw [hlink.reported] at ho
  change outcome = o at ho
  subst ho
  have hplaced : (e.visit template index statement args columns).Placed e.keys :=
    ⟨columns, hcolumns, rfl⟩
  obtain ⟨rfl, hsorted, hown⟩ :=
    Connection.execute_log (v := e.visit template index statement args columns) h.sorted h.own rfl
      (hground.placeOf_eq hplaced) hconnection
  rw [keyIn_eq hground.keys] at hkey
  have hmem : ∀ {P : Visit → Prop}, (∀ v ∈ log, P v) →
      P (e.visit template index statement args columns) →
      ∀ v ∈ log ++ [e.visit template index statement args columns], P v := by
    intro P hlog hlast v hv
    rcases List.mem_append.1 hv with hv | hv
    · exact hlog v hv
    · exact List.mem_singleton.1 hv ▸ hlast
  refine ⟨rfl, ⟨hlink.reported, hlink.gate, hlink.rollback⟩, h.blocked, ?_, ?_, hsorted, hown, ?_,
    hmem h.placed hplaced, hmem h.older (.refl _)⟩
  · cases key with
    | none => exact h.sampled
    | some k => exact h.sampled
  · have hkeyed : key =
        if (e.visit template index statement args columns).keyed t.sampled then
          some (e.visit template index statement args columns).key
        else none := (Except.ok.inj hkey).symm
    cases hk : (e.visit template index statement args columns).keyed t.sampled with
    | true =>
        rw [hkeyed, hk, if_pos rfl]
        exact h.follows.record rfl rfl hk
    | false =>
        rw [hkeyed, hk, if_neg Bool.false_ne_true]
        exact h.follows.skip hk
  · refine hmem h.statements ⟨template, ?_, ?_⟩
    · exact List.mem_of_find?_eq_some htemplate
    · exact List.mem_of_getElem? hstatement

/-- A statement changes nothing but its worker, and counts a transaction that begins or ends. -/
theorem execute_eq (hid : ∀ w, e.worker? id = some w → w.id = id) (name : String) (index : Nat)
    (args : List Value) :
    ∃ counters next workers,
      (e.execute id name index args).2 = { e with counters, nextTransaction := next, workers } ∧
        ∀ i, i ≠ id → workers.lookup i = e.worker? i := by
  have hput : ∀ (w : Worker), w.id = id → ∀ (counters : Counters) (next : Nat) (i : Nat), i ≠ id →
      (Engine.put { e with counters, nextTransaction := next } w).workers.lookup i =
        e.worker? i := by
    intro w hw counters next i hi
    change (Engine.put { e with counters, nextTransaction := next } w).worker? i = _
    rw [worker?_put, hw, if_neg hi]
    rfl
  cases hw : e.worker? id with
  | none =>
      rw [execute_of_none hw]
      exact ⟨e.counters, e.nextTransaction, e.workers, rfl, fun _ _ => rfl⟩
  | some w =>
      have hexecuted := execute_inv hw name index args
      generalize e.execute id name index args = done at hexecuted
      obtain ⟨answer, e'⟩ := done
      cases hexecuted with
      | refused f _ => exact ⟨_, _, _, rfl, fun _ _ => rfl⟩
      | keyless q f _ _ =>
          obtain ⟨counters, next, hbegun⟩ := e.begun_eq w q.template
          rw [hbegun]
          refine ⟨counters, next, _, rfl, hput _ ?_ counters next⟩
          exact (beginner_id ..).trans (hid w hw)
      | lost q key f _ _ _ =>
          obtain ⟨counters, next, hbegun⟩ := e.begun_eq w q.template
          rw [abandon_eq, hbegun]
          refine ⟨counters.finish false, next, _, rfl, hput _ ?_ _ next⟩
          exact (beginner_id ..).trans (hid w hw)
      | answered q key outcome link _ _ _ =>
          obtain ⟨counters, next, hbegun⟩ := e.begun_eq w q.template
          rw [hbegun]
          refine ⟨counters, next, _, rfl, hput _ ?_ counters next⟩
          exact (beginner_id ..).trans (hid w hw)

/-- What the logs of an engine are after a call of a statement with its result. -/
inductive Logged (e : Engine) (logs : Nat → Log) (id : Nat) (name : String) (index : Nat)
    (args : List Value) : Except Fault Outcome → (Nat → Log) → Prop where
  | unanswered (f : Fault) :
    Logged e logs id name index args (.error f) (Function.update logs id (e.openLog logs id))
  | answered (template : Transaction) (statement : Statement) (columns : Columns)
    (htemplate : e.workload.find? name = some template)
    (hstatement : template.statements[index]? = some statement)
    (hcolumns : statement.resolve args = .ok columns) :
    Logged e logs id name index args
      (.ok ((e.openLog logs id).outcome (e.visit template index statement args columns)))
      (Function.update logs id
        (e.openLog logs id ++ [e.visit template index statement args columns]))

/-- A statement of a sound engine goes into the log of its worker. -/
theorem Sound.execute (h : e.Sound logs) (hidle : e.busy id = false) (name : String) (index : Nat)
    (args : List Value) :
    ∃ logs', e.Logged logs id name index args (e.execute id name index args).1 logs' ∧
      (e.execute id name index args).2.Sound logs' := by
  cases hw : e.worker? id with
  | none =>
      rw [execute_of_none hw]
      exact ⟨_, .unanswered _, h.openLog id⟩
  | some w =>
      have hid : w.id = id := h.id_eq id w hw
      have hfine := h.fine id w hw
      have hfree : w.blocked = none := by
        simpa [busy, hw] using hidle
      have hbegun : ∀ template, (e.begun w template).Ground ∧ e.Advances (e.begun w template) ∧
          (e.begun w template).workers = e.workers ∧
          (e.begun w template).workload = e.workload ∧
          (e.begun w template).keys = e.keys ∧ (e.begun w template).visit = e.visit := by
        intro template
        obtain ⟨counters, next, heq⟩ := e.begun_eq w template
        rw [heq]
        exact ⟨h.ground.congr rfl rfl rfl rfl rfl, ⟨rfl, rfl, rfl, fun _ => .refl _⟩, rfl, rfl, rfl,
          rfl⟩
      have hexecuted := execute_inv hw name index args
      generalize e.execute id name index args = done at hexecuted
      obtain ⟨answer, e'⟩ := done
      cases hexecuted with
      | refused f _ => exact ⟨_, .unanswered f, h.openLog id⟩
      | keyless q f hready hkey =>
          obtain ⟨columns, -, -, -, -, hq⟩ := ready_eq_ok h.ground.keys hready
          generalize q.template = template, q.statement = statement at hkey hq
          rw [keyIn_begun, hq, keyIn_eq h.ground.keys] at hkey
          cases hkey
      | lost q key f hready _ _ =>
          obtain ⟨hground, ha, hworkers, -, -, -⟩ := hbegun q.template
          refine ⟨_, .unanswered f, ?_⟩
          have hlink : (e.beginner w q.template).link.rollback.2 =
              { w.link with connection.writes := [] } := by
            rw [beginner_link, Link.rollback_eq hfine.honest.rollback]
          refine (h.openLog id).put (hground.congr rfl rfl rfl rfl rfl)
            ⟨ha.workload, ha.config, ha.keys, ha.rows⟩ hworkers ?_ fun _ _ => rfl
          rw [abandon_eq, hlink]
          refine fine_of_idle ?_ rfl rfl _
          exact ⟨hfine.honest.reported, hfine.honest.gate, hfine.honest.rollback⟩
      | answered q key outcome link hready hkey hexec =>
          obtain ⟨columns, htemplate, hstatement, -, hcolumns, hq⟩ :=
            ready_eq_ok h.ground.keys hready
          generalize q.template = template, q.statement = statement at *
          subst hq
          obtain ⟨hground, ha, hworkers, hworkload, hkeys, hvisit⟩ := hbegun template
          have hlink : (e.beginner w template).link.Honest := by
            rw [beginner_link]
            exact hfine.honest
          obtain ⟨ho, hhonest, hopened⟩ := (h.begin hw hfree template).answer hground hlink
            (hworkload ▸ htemplate) hstatement hcolumns (hkeys.symm ▸ hkey) hexec
          rw [hvisit] at ho hopened
          rw [hkeys] at hopened
          rw [ho]
          refine ⟨_, .answered template statement columns htemplate hstatement hcolumns, ?_⟩
          refine h.put (hground.congr rfl rfl rfl rfl rfl)
            ⟨ha.workload, ha.config, ha.keys, ha.rows⟩ hworkers ?_ ?_
          · refine ⟨hhonest, ?_, ?_⟩
            · intro hnone
              cases hnone
            · intro t ht
              change some _ = some t at ht
              rw [Option.some.injEq] at ht
              rw [← ht, beginner_id, hid, Function.update_self]
              rw [ho] at hopened
              exact hopened
          · intro i hi
            rw [beginner_id, hid] at hi
            exact Function.update_of_ne hi _ _

/-- A statement that is ready and gets through to an available store is answered. -/
theorem Sound.execute_answered (h : e.Sound logs) (hw : e.worker? id = some w) {name : String}
    {index : Nat} {args : List Value} {template : Transaction} {statement : Statement}
    {columns : Columns} (hcolumns : statement.resolve args = .ok columns)
    (hready : e.ready w name index args =
      .ok (readyStatement e.keys.number template index statement columns))
    (hlink : .execute ∉ w.link.failing) (havailable : e.store.unavailable = false) :
    ∃ (key : Option RowKey) (outcome : Outcome) (link : Link), link.failing = w.link.failing ∧
      e.execute id name index args = (.ok outcome, (e.begun w template).put
        { e.beginner w template with
          link
          current := some (key.elim (e.opened w template).1 fun k => (e.opened w template).1.record
            (readyStatement e.keys.number template index statement columns) k
            outcome.version) }) := by
  obtain ⟨counters, next, hbegun⟩ := e.begun_eq w template
  have hstore : (e.begun w template).store = e.store := by rw [hbegun]
  have hexecuted := execute_inv hw name index args
  generalize e.execute id name index args = done at hexecuted
  obtain ⟨answer, e'⟩ := done
  cases hexecuted with
  | refused f hrefused =>
      rw [hready] at hrefused
      cases hrefused
  | keyless q f hq hkey =>
      rw [hready, Except.ok.injEq] at hq
      subst hq
      have hfound :=
        keyIn_eq h.ground.keys (e.opened w template).1 template index statement columns
      rw [keyIn_begun] at hkey
      have hno : Except.error f = Except.ok _ := hkey.symm.trans hfound
      cases hno
  | lost q key f hq _ hexec =>
      rw [hready, Except.ok.injEq] at hq
      subst hq
      have hplaced : (e.visit template index statement args columns).Placed e.keys :=
        ⟨columns, hcolumns, rfl⟩
      obtain ⟨outcome, link, hok⟩ :=
        Link.exists_execute hlink havailable (h.ground.placeOf_eq hplaced)
      have hlost : w.link.execute e.store statement args = .error f := by
        rw [← hstore, ← beginner_link e w template]
        exact hexec
      have hno : Except.ok _ = Except.error f := hok.symm.trans hlost
      cases hno
  | answered q key outcome link hq _ hexec =>
      rw [hready, Except.ok.injEq] at hq
      subst hq
      have hbeginner : (e.beginner w template).link.failing = w.link.failing := by
        rw [beginner_link]
      refine ⟨key, outcome, link, ?_, rfl⟩
      obtain ⟨-, o, c, -, -, rfl⟩ := Link.execute_eq_ok.1 hexec
      exact hbeginner

end Engine

end LiveIsolation
