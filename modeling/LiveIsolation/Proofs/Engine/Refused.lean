import LiveIsolation.Proofs.Engine.Faultless
import LiveIsolation.Proofs.Engine.Sampled

/-!
# What is left of a refused statement

A statement that is not answered was refused for what it is called with, or the store has failed.
The store takes the transaction with it (`Engine.GivesUp`). What is refused leaves everything as it
was (`Engine.Traceless`), but for one case. The row of a statement that is neither marked nor a
write with columns is not asked for ahead, so that a rule that refuses it is heard only after a
transaction has been opened (`Engine.RefusedLate`). A sampled transaction asks before the store does
and stays open; in any other one the store refuses the row, and the worker gives the transaction up
as if the store had failed (`Engine.refused_traceless_iff`).
-/

namespace LiveIsolation

/-- The row of the statement is asked for before a transaction begins. -/
def Statement.asksAhead (s : Statement) : Bool :=
  s.validatedAny || (!s.bindings.isEmpty && s.kind.isWrite)

/-- A store that does not find the row of a statement has had it refused by the rule, if the
arguments can be bound. -/
theorem Store.keys_of_placeOf {store : Store} {s : Statement} {args : List Value}
    {columns : Columns} {f : Fault} (hresolve : s.resolve args = .ok columns)
    (h : store.placeOf s args = .error f) : store.keys s.relation columns = .error f := by
  rcases Fault.of_bind h with herror | ⟨columns', hcolumns, hnumber⟩
  · cases hresolve.symm.trans herror
  · obtain rfl := Except.ok.inj (hresolve.symm.trans hcolumns)
    rcases Fault.of_bind hnumber with hkey | ⟨key, -, hdone⟩
    · exact hkey
    · cases hdone

namespace Engine

/-- Nothing has changed that anyone can tell. -/
def Traceless (e e' : Engine) : Prop :=
  ∃ workers, e' = { e with workers } ∧ ∀ i, e'.worker? i = e.worker? i

/-- A worker has lost its transaction: it is idle and has nothing buffered. No row has changed, and
one more transaction is counted as aborted. -/
structure GivesUp (e : Engine) (id : Nat) (e' : Engine) : Prop where
  idle : ∃ w, e'.worker? id = some w ∧ w.current = none ∧ w.obligationCount = 0 ∧
    w.link.connection.writes = []
  store : e'.store = e.store
  others : ∀ i, i ≠ id → e'.worker? i = e.worker? i
  aborted : e'.counters.aborted = e.counters.aborted + 1

/-- A worker that was idle has got a sampled transaction, in which nothing has been done. -/
structure Opens (e : Engine) (id : Nat) (e' : Engine) : Prop where
  opened : ∃ w t, e'.worker? id = some w ∧ w.transaction = e.nextTransaction ∧
    w.current = some t ∧ t.sampled = true ∧ t.obligations = {} ∧ t.written = []
  store : e'.store = e.store
  others : ∀ i, i ≠ id → e'.worker? i = e.worker? i
  counters : e'.counters = e.counters.start

/-- A statement can be called for, and its arguments can be bound. Its row is not asked for ahead,
and the rule refuses it. -/
structure RefusedLate (e : Engine) (w : Worker) (name : String) (index : Nat) (args : List Value)
    (s : Statement) : Prop where
  found : ∃ template, e.workload.find? name = some template ∧
    template.statements[index]? = some s ∧ ∀ t, w.current = some t → t.template.id = template.id
  unasked : s.asksAhead = false
  refused : ∃ columns f, s.resolve args = .ok columns ∧ e.keys s.relation columns = .error f

/-- The transaction of a statement is sampled, be it the open one or one that begins with it. -/
def samplesNext (e : Engine) (w : Worker) : Bool :=
  w.current.elim (e.config.samples e.nextTransaction) (·.sampled)

variable {e e' : Engine} {w : Worker} {id : Nat} {name : String} {index : Nat} {args : List Value}
  {s : Statement} {q : ReadyStatement} {f : Fault}

theorem samplesNext_of_sampled (h : w.sampled = true) : e.samplesNext w = true := by
  obtain ⟨t, ht, hsampled⟩ := (Option.any_eq_true _ _).1 h
  rw [samplesNext, ht]
  exact hsampled

theorem sampled_opened (e : Engine) (w : Worker) (template : Transaction) :
    (e.opened w template).1.sampled = e.samplesNext w := by
  rcases opened_eq e w template with ⟨hcurrent, -, -⟩ | ⟨hcurrent, hopened, -, -⟩
  · rw [samplesNext, hcurrent]
    rfl
  · rw [samplesNext, hcurrent, hopened]
    rfl

section Ready

/-- What is ready is a statement of the template that is open, if one is. -/
theorem bound_of_ready (h : e.ready w name index args = .ok q) (t : OpenTransaction)
    (ht : w.current = some t) : t.template.id = q.template.id := by
  obtain ⟨htemplate, hstatement, -⟩ := ready_inv h
  by_contra hne
  simp only [ready, htemplate, hstatement, ht, ne_eq, hne, not_false_eq_true, if_true] at h
  cases h

theorem ready_asks (h : e.ready w name index args = .ok q) :
    q.columns.isSome = !q.statement.bindings.isEmpty ∧ q.key.isSome = q.statement.asksAhead := by
  obtain ⟨template, statement, -, -, hbound⟩ := ready_bound h
  obtain ⟨-, hstatement, -⟩ := bound_eq_ok hbound
  rw [hstatement]
  exact bound_asks hbound

/-- A statement that is ready is refused late if the rule refuses its row. -/
theorem refusedLate_of_ready (h : e.ready w name index args = .ok q) {columns : Columns}
    (hresolve : q.statement.resolve args = .ok columns)
    (hrefused : e.keys q.statement.relation columns = .error f) :
    e.RefusedLate w name index args q.statement := by
  obtain ⟨htemplate, hstatement, columns', hresolve', -, -, hkeys⟩ := ready_inv h
  refine ⟨⟨q.template, htemplate, hstatement, bound_of_ready h⟩, ?_, columns, f, hresolve, hrefused⟩
  rw [← (ready_asks h).2]
  cases hkey : q.key with
  | none => rfl
  | some key =>
      obtain rfl := Except.ok.inj (hresolve.symm.trans hresolve')
      cases hrefused.symm.trans (hkeys key hkey)

/-- A statement whose row is not asked for ahead is ready as soon as its arguments are bound. -/
theorem bound_of_unasked {keys : KeyRule} {template : Transaction} {columns : Columns}
    (hunasked : s.asksAhead = false) (hresolve : s.resolve args = .ok columns) :
    (do
      let columns ← if s.bindings.isEmpty then pure none else some <$> s.resolve args
      let needed := s.validatedAny || (columns.isSome && s.kind.isWrite)
      let key ← if needed then some <$> keys s.relation (columns.getD []) else pure none
      return ({ template, index, statement := s, columns, key } : ReadyStatement)) =
      .ok { template, index, statement := s, key := none,
            columns := if s.bindings.isEmpty then none else some columns } := by
  obtain ⟨hmarked, hwrite⟩ := Bool.or_eq_false_iff.1 hunasked
  cases hempty : s.bindings.isEmpty with
  | true => simp [hmarked, bind, Except.bind, pure, Except.pure]
  | false =>
      have hread : s.kind.isWrite = false := by simpa [hempty] using hwrite
      simp [hmarked, hread, hresolve, bind, Except.bind, pure, Except.pure, Functor.map, Except.map]

/-- A statement that is refused late has got ready before. -/
theorem RefusedLate.ready (h : e.RefusedLate w name index args s) :
    ∃ q, e.ready w name index args = .ok q ∧ q.statement = s := by
  obtain ⟨⟨template, htemplate, hstatement, hbound⟩, hunasked, columns, -, hresolve, -⟩ := h
  refine ⟨{ template, index, statement := s, key := none,
            columns := if s.bindings.isEmpty then none else some columns }, ?_, rfl⟩
  cases hcurrent : w.current with
  | none =>
      simp only [Engine.ready, htemplate, hstatement, hcurrent]
      exact bound_of_unasked hunasked hresolve
  | some t =>
      simp only [Engine.ready, htemplate, hstatement, hcurrent, hbound t hcurrent, ne_eq,
        not_true_eq_false, if_false]
      exact bound_of_unasked hunasked hresolve

/-- It is one statement that is called for. -/
theorem RefusedLate.eq_of_ready (h : e.RefusedLate w name index args s)
    (hready : e.ready w name index args = .ok q) : s = q.statement := by
  obtain ⟨q', hq', rfl⟩ := h.ready
  rw [Except.ok.inj (hq'.symm.trans hready)]

/-- Only a sampled transaction hears that a row is refused. -/
theorem keyIn_eq_error {t : OpenTransaction} (h : e.keyIn t q = .error f) :
    t.sampled = true ∧ ∃ columns, q.columns = some columns ∧
      e.keys q.statement.relation columns = .error f := by
  simp only [keyIn] at h
  split at h
  · rename_i columns _ hcolumns
    split at h
    · rename_i hsampled
      refine ⟨hsampled, columns, hcolumns, ?_⟩
      cases hkey : e.keys q.statement.relation columns with
      | ok key =>
          rw [hkey] at h
          cases h
      | error g =>
          rw [hkey] at h
          exact congrArg Except.error (Except.error.inj h)
    · cases h
  · cases h

/-- What a sampled transaction hears refused is a row with columns. -/
theorem refusedLate_of_keyIn (hready : e.ready w name index args = .ok q)
    (hkey : (e.begun w q.template).keyIn (e.opened w q.template).1 q = .error f) :
    e.RefusedLate w name index args q.statement ∧ e.samplesNext w = true ∧
      q.statement.bindings.isEmpty = false ∧
      ∃ columns, e.keys q.statement.relation columns = .error f := by
  obtain ⟨counters, next, hbegun⟩ := begun_eq e w q.template
  obtain ⟨hsampled, columns, hcolumns, hrefused⟩ := keyIn_eq_error hkey
  rw [sampled_opened] at hsampled
  rw [hbegun] at hrefused
  obtain ⟨-, -, columns', hresolve, hsame, -⟩ := ready_inv hready
  obtain rfl := hsame columns hcolumns
  have hbinds : (!q.statement.bindings.isEmpty) = true := by
    rw [← (ready_asks hready).1, hcolumns]
    rfl
  exact ⟨refusedLate_of_ready hready hresolve hrefused, hsampled, (Bool.not_eq_true' _).mp hbinds,
    columns, hrefused⟩

/-- What the store hears refused, the engine has not asked for. -/
theorem refusedLate_of_placeOf (hstore : e.store.keys = e.keys)
    (hready : e.ready w name index args = .ok q)
    (hplace : (e.begun w q.template).store.placeOf q.statement args = .error f) :
    e.RefusedLate w name index args q.statement ∧
      ∃ columns, e.keys q.statement.relation columns = .error f := by
  obtain ⟨counters, next, hbegun⟩ := begun_eq e w q.template
  rw [hbegun] at hplace
  obtain ⟨-, -, columns, hresolve, -⟩ := ready_inv hready
  have hrefused := Store.keys_of_placeOf hresolve hplace
  rw [hstore] at hrefused
  exact ⟨refusedLate_of_ready hready hresolve hrefused, columns, hrefused⟩

/-- A transaction that goes on to the store has not asked for a row that the rule refuses. -/
theorem RefusedLate.unheard (h : e.RefusedLate w name index args s)
    (hready : e.ready w name index args = .ok q) {key : Option RowKey}
    (hkey : (e.begun w q.template).keyIn (e.opened w q.template).1 q = .ok key) :
    (e.samplesNext w && !s.bindings.isEmpty) = false := by
  obtain rfl := h.eq_of_ready hready
  obtain ⟨counters, next, hbegun⟩ := begun_eq e w q.template
  have hasks := keyIn_asks hready hkey
  rw [sampled_opened] at hasks
  cases key with
  | none =>
      have hneither : ∀ a b c d : Bool, false = (a || (!b && (c || d))) → (d && !b) = false := by
        decide
      exact hneither _ _ _ _ hasks
  | some k =>
      obtain ⟨columns, hresolve, hnumber⟩ := keyIn_of_ready hready (hbegun ▸ rfl) hkey
      obtain ⟨columns', g, hresolve', hrefused⟩ := h.refused
      obtain rfl := Except.ok.inj (hresolve.symm.trans hresolve')
      cases hrefused.symm.trans hnumber

end Ready

section Left

theorem Traceless.refl (e : Engine) : e.Traceless e := ⟨e.workers, rfl, fun _ => rfl⟩

theorem others_put (hworkers : e'.workers = e.workers) (hid : w.id = id) :
    ∀ i, i ≠ id → (e'.put w).worker? i = e.worker? i := by
  intro i hi
  rw [worker?_put, if_neg (hid ▸ hi), worker?, worker?, hworkers]

theorem traceless_put (hw : e.worker? id = some w) (hid : w.id = id) : e.Traceless (e.put w) := by
  refine ⟨(e.put w).workers, rfl, fun i => ?_⟩
  by_cases hi : i = id
  · rw [worker?_put, if_pos (hi.trans hid.symm), hi, hw]
  · exact others_put rfl hid i hi

/-- A transaction that is lost, be it one that was open or one that has begun with the statement,
is given up. -/
theorem givesUp_abandon (hid : w.id = id) (hrollback : StoreCall.rollback ∉ w.link.failing)
    (template : Transaction) :
    e.GivesUp id (((e.begun w template).abandon (e.beginner w template)).1.put
      ((e.begun w template).abandon (e.beginner w template)).2) := by
  obtain ⟨counters, next, hbegun⟩ := begun_eq e w template
  have hbeginner : (e.beginner w template).id = id := (beginner_id e w template).trans hid
  have hlink : (e.beginner w template).link.rollback.2 =
      { w.link with connection.writes := [] } := by
    rw [beginner_link, Link.rollback_eq hrollback]
  have haborted : (e.begun w template).counters.aborted = e.counters.aborted := by
    rcases opened_eq e w template with ⟨-, h, -⟩ | ⟨-, -, h, -⟩
    · rw [h]
    · rw [h]
      rfl
  rw [abandon_eq, hlink]
  refine ⟨⟨_, (worker?_put _ _ _).trans (if_pos hbeginner.symm), rfl, rfl, rfl⟩, ?_, ?_, ?_⟩
  · change (e.begun w template).store = e.store
    rw [hbegun]
  · refine others_put ?_ hbeginner
    change (e.begun w template).workers = e.workers
    rw [hbegun]
  · exact congrArg (· + 1) haborted

/-- A sampled transaction begins with a statement and stays open. -/
theorem opens_begun (hid : w.id = id) (hidle : w.current = none) (hsampled : e.samplesNext w = true)
    (template : Transaction) :
    e.Opens id ((e.begun w template).put (e.beginner w template)) := by
  rcases opened_eq e w template with ⟨hcurrent, -, -⟩ | ⟨-, hopened, hbegun, hbeginner⟩
  · cases hidle.symm.trans hcurrent
  · have hsample := sampled_opened e w template
    rw [hsampled] at hsample
    rw [hbegun, hbeginner]
    refine ⟨⟨_, _, (worker?_put _ _ _).trans (if_pos hid.symm), rfl, rfl, hsample, ?_, ?_⟩, rfl,
      others_put rfl hid, rfl⟩
    · rw [hopened]
    · rw [hopened]

/-- How a statement that is not answered leaves the engine. -/
inductive Left (e : Engine) (w : Worker) (name : String) (index : Nat) (args : List Value)
    (f : Fault) (e' : Engine) : Prop where
  | unmoved (hcls : f.cls = .invalidInput ∨ f.cls = .invalidState) (htraceless : e.Traceless e')
    (hheard : ∀ s, e.RefusedLate w name index args s →
      w.sampled = true ∧ s.bindings.isEmpty = false)
  | opened (s : Statement) (hcls : f.cls = .invalidInput)
    (hlate : e.RefusedLate w name index args s) (hidle : w.current = none)
    (hsampled : (e.samplesNext w && !s.bindings.isEmpty) = true) (hopens : e.Opens w.id e')
  | givenUp (hcls : f.cls = .store ∨
      f.cls = .invalidInput ∧ ∃ s, e.RefusedLate w name index args s)
    (hunheard : ∀ s, e.RefusedLate w name index args s →
      (e.samplesNext w && !s.bindings.isEmpty) = false)
    (hgivesUp : e.GivesUp w.id e')

/-- What the engine asks the rule for, the store asks it for too. -/
theorem Executed.left (hkeys : e.keys.Lawful) (hstore : e.store.keys = e.keys)
    (hw : e.worker? w.id = some w) (hrollback : StoreCall.rollback ∉ w.link.failing)
    (h : Executed e w name index args (.error f) e') : Left e w name index args f e' := by
  cases h with
  | refused f hready =>
      refine .unmoved (cls_of_ready hkeys hready) (.refl e) fun s hlate => ?_
      obtain ⟨q, hq, -⟩ := hlate.ready
      cases hready.symm.trans hq
  | keyless q f hready hkey =>
      obtain ⟨hlate, hsampled, hbinds, columns, hrefused⟩ := refusedLate_of_keyIn hready hkey
      have hcls := hkeys _ columns f hrefused
      rcases opened_eq e w q.template with ⟨hcurrent, hbegun, hbeginner⟩ | ⟨hidle, -, -, -⟩
      · -- the transaction was open before, so that nothing has been begun for the statement
        rw [hbegun, hbeginner]
        refine .unmoved (.inl hcls) (traceless_put hw rfl) fun s hs => ?_
        rw [samplesNext, hcurrent] at hsampled
        rw [hs.eq_of_ready hready, Worker.sampled, hcurrent]
        exact ⟨hsampled, hbinds⟩
      · refine .opened q.statement hcls hlate hidle ?_ (opens_begun rfl hidle hsampled q.template)
        rw [hsampled, hbinds]
        rfl
  | lost q key f hready hkey hexec =>
      refine .givenUp ?_ (fun s hlate => hlate.unheard hready hkey)
        (givesUp_abandon rfl hrollback q.template)
      rcases Link.cls_of_execute hexec with hcls | hplace
      · exact .inl hcls
      · obtain ⟨hlate, columns, hrefused⟩ := refusedLate_of_placeOf hstore hready hplace
        exact .inr ⟨hkeys _ columns f hrefused, _, hlate⟩

theorem Opens.not_traceless (h : e.Opens id e') : ¬e.Traceless e' := by
  rintro ⟨workers, rfl, -⟩
  exact absurd (congrArg Counters.started h.counters) (Nat.ne_of_lt (Nat.lt_succ_self _))

theorem GivesUp.not_traceless (h : e.GivesUp id e') : ¬e.Traceless e' := by
  rintro ⟨workers, rfl, -⟩
  exact absurd h.aborted (Nat.ne_of_lt (Nat.lt_succ_self _))

theorem Left.cls (h : Left e w name index args f e') :
    f.cls = .store ∨ f.cls = .invalidInput ∨ f.cls = .invalidState := by
  cases h with
  | unmoved hcls _ _ => exact .inr hcls
  | opened s hcls _ _ _ _ => exact .inr (.inl hcls)
  | givenUp hcls _ _ => exact hcls.imp_right fun hlate => .inl hlate.1

theorem Left.givesUp_of_store (h : Left e w name index args f e') (hf : f.cls = .store) :
    e.GivesUp w.id e' := by
  cases h with
  | unmoved hcls _ _ => rcases hcls with hcls | hcls <;> cases hf.symm.trans hcls
  | opened s hcls _ _ _ _ => cases hf.symm.trans hcls
  | givenUp _ _ hgivesUp => exact hgivesUp

theorem Left.traceless_iff (h : Left e w name index args f e') (hf : f.cls ≠ .store) :
    e.Traceless e' ↔ ∀ s, e.RefusedLate w name index args s →
      w.sampled = true ∧ s.bindings.isEmpty = false := by
  cases h with
  | unmoved _ htraceless hheard => exact iff_of_true htraceless hheard
  | opened s _ hlate hidle _ hopens =>
      refine iff_of_false hopens.not_traceless fun hheard => ?_
      have hsampled := (hheard s hlate).1
      rw [Worker.sampled, hidle] at hsampled
      cases hsampled
  | givenUp hcls hunheard hgivesUp =>
      obtain ⟨-, s, hlate⟩ := hcls.resolve_left hf
      refine iff_of_false hgivesUp.not_traceless fun hheard => ?_
      obtain ⟨hsampled, hbinds⟩ := hheard s hlate
      have hnot := hunheard s hlate
      rw [samplesNext_of_sampled hsampled, hbinds] at hnot
      cases hnot

/-- What a statement leaves that is refused late, and not by an open sampled transaction. -/
theorem Left.of_refusedLate (h : Left e w name index args f e')
    (hlate : e.RefusedLate w name index args s)
    (hnot : ¬(w.sampled = true ∧ s.bindings.isEmpty = false)) :
    if e.samplesNext w && !s.bindings.isEmpty then e.Opens w.id e' else e.GivesUp w.id e' := by
  cases h with
  | unmoved _ _ hheard => exact absurd (hheard s hlate) hnot
  | opened s' _ hlate' _ hsampled hopens =>
      obtain ⟨q, hready, rfl⟩ := hlate'.ready
      rw [hlate.eq_of_ready hready, if_pos hsampled]
      exact hopens
  | givenUp _ hunheard hgivesUp =>
      rw [hunheard s hlate, if_neg Bool.false_ne_true]
      exact hgivesUp

end Left

/-- Whatever happens to an engine, a statement that is not answered has been refused for what it is
called with, or the store has failed. If the store has failed, the worker has lost its transaction.
Otherwise nothing has changed, unless the statement is refused late and not by an open sampled
transaction; if it is, a sampled transaction has begun with a statement that binds a column, and in
all other cases the worker has lost its transaction. -/
theorem refused_traceless_iff {workload : Workload} {config : EngineConfig} {keys : KeyRule}
    (hcreate : create workload config keys = .ok e) (hkeys : keys.Lawful) (turns : List Turn)
    (hexecute : (e.through turns).execute id name index args = (.error f, e')) :
    (f.cls = .store ∨ f.cls = .invalidInput ∨ f.cls = .invalidState) ∧
      (f.cls = .store → (e.through turns).GivesUp id e') ∧
      (f.cls ≠ .store → ((e.through turns).Traceless e' ↔
        ∀ w s, (e.through turns).worker? id = some w →
          (e.through turns).RefusedLate w name index args s →
            w.sampled = true ∧ s.bindings.isEmpty = false)) ∧
      ∀ w s, (e.through turns).worker? id = some w →
        (e.through turns).RefusedLate w name index args s →
        ¬(w.sampled = true ∧ s.bindings.isEmpty = false) →
          if (e.through turns).samplesNext w && !s.bindings.isEmpty then
            (e.through turns).Opens id e'
          else (e.through turns).GivesUp id e' := by
  have hseated := (seated_create hcreate).through turns
  have hsteady := (steady_create hcreate).through turns
  have hsamples := (samples_create hcreate).through (seated_create hcreate) turns
  generalize e.through turns = e₀ at *
  cases hw : e₀.worker? id with
  | none =>
      -- a worker that has been closed
      rw [execute_of_none hw] at hexecute
      cases hexecute
      refine ⟨.inr (.inr rfl), fun hf => ?_, fun _ => iff_of_true (.refl _) fun w s hw' => ?_,
        fun w s hw' => ?_⟩
      · cases hf
      · cases hw'
      · cases hw'
  | some w =>
      obtain rfl := (hseated id w hw).1
      have hexecuted := execute_inv hw name index args
      rw [hexecute] at hexecuted
      have hleft := hexecuted.left (hsamples.keys ▸ hkeys)
        (hsamples.storeKeys.trans hsamples.keys.symm) hw (hsteady.tidy w.id w hw).rollback
      refine ⟨hleft.cls, hleft.givesUp_of_store, fun hf => (hleft.traceless_iff hf).trans ?_, ?_⟩
      · constructor
        · intro hheard w' s hw' hlate
          cases hw'
          exact hheard s hlate
        · exact fun hheard s hlate => hheard w s rfl hlate
      · intro w' s hw' hlate hnot
        cases hw'
        exact hleft.of_refusedLate hlate hnot

/-- The read of a row in the template that looks at a relation. -/
def lookUp : Statement := { kind := .read, relation := "x", bindings := [⟨0, "id"⟩] }

def connectedOnce : List Turn := [.plain (.action (.connect 1))]

/-- A rule numbers rows by integers, and an idle worker reads the row of a text. The read is refused
late, and the worker loses the transaction that has begun with it. -/
theorem lookUp_gives_up :
    ∃ workload e e' f, (Registry.run looking).analyze = .ok workload ∧
      create workload (.ofProtocol .snapshot) RowKey.firstInteger = .ok e ∧
      (e.through connectedOnce).execute 1 "look" 1 [.text "a"] = (.error f, e') ∧
      f.cls = .invalidInput ∧ (e.through connectedOnce).GivesUp 1 e' ∧
      ¬(e.through connectedOnce).Traceless e' := by
  obtain ⟨workload, hanalyze, e, hcreate, hfault, hfound, hidle, hsampling⟩ :
      ∃ workload, (Registry.run looking).analyze = .ok workload ∧
        ∃ e, create workload (.ofProtocol .snapshot) RowKey.firstInteger = .ok e ∧
          Fault.of? ((e.through connectedOnce).execute 1 "look" 1 [.text "a"]).1 =
            some (.reported .invalidInput "no key for x") ∧
          ((e.through connectedOnce).workload.find? "look").any
            (fun template => template.statements[1]? == some lookUp) = true ∧
          ((e.through connectedOnce).worker? 1).any (·.current.isNone) = true ∧
          (e.through connectedOnce).config.samples (e.through connectedOnce).nextTransaction =
            false :=
    ⟨_, rfl, exists_create _ _ _ _ (by decide +kernel)⟩
  have hkeys : (e.through connectedOnce).keys = RowKey.firstInteger :=
    ((samples_create hcreate).through (seated_create hcreate) connectedOnce).keys
  obtain ⟨template, htemplate, hstatement⟩ := (Option.any_eq_true _ _).1 hfound
  obtain ⟨w, hw, hcurrent⟩ := (Option.any_eq_true _ _).1 hidle
  rw [Option.isNone_iff_eq_none] at hcurrent
  have hlate : (e.through connectedOnce).RefusedLate w "look" 1 [.text "a"] lookUp := by
    refine ⟨⟨template, htemplate, eq_of_beq hstatement, ?_⟩, rfl, [("id", .text "a")],
      .reported .invalidInput "no key for x", rfl, ?_⟩
    · rw [hcurrent]
      exact nofun
    · rw [hkeys]
      rfl
  have hnot : ¬(w.sampled = true ∧ lookUp.bindings.isEmpty = false) := by
    rw [Worker.sampled, hcurrent]
    exact fun h => Bool.false_ne_true h.1
  have hnext : (e.through connectedOnce).samplesNext w = false := by
    rw [samplesNext, hcurrent]
    exact hsampling
  have hexecute : (e.through connectedOnce).execute 1 "look" 1 [.text "a"] =
      (.error (.reported .invalidInput "no key for x"), _) :=
    Prod.ext (Overlap.eq_error_of_of? hfault) rfl
  obtain ⟨-, -, htraceless, hleft⟩ :=
    refused_traceless_iff hcreate RowKey.lawful_firstInteger connectedOnce hexecute
  have hgivesUp := hleft w lookUp hw hlate hnot
  rw [hnext, Bool.false_and, if_neg Bool.false_ne_true] at hgivesUp
  exact ⟨workload, e, _, _, hanalyze, hcreate, hexecute, rfl, hgivesUp,
    fun h => hnot ((htraceless nofun).1 h w lookUp hw hlate)⟩

/-- The worker was idle and no transaction had begun. The read is refused for its argument, but a
transaction is counted as started and aborted, and the worker has got its number. -/
theorem lookUp_leaves_trace :
    ∃ workload, (Registry.run looking).analyze = .ok workload ∧ ∃ e,
      create workload (.ofProtocol .snapshot) RowKey.firstInteger = .ok e ∧
      Fault.of? ((e.through connectedOnce).execute 1 "look" 1 [.text "a"]).1 =
        some (.reported .invalidInput "no key for x") ∧
      (e.through connectedOnce).counters = {} ∧
      ((e.through connectedOnce).execute 1 "look" 1 [.text "a"]).2.counters =
        { started := 1, aborted := 1 } ∧
      ((e.through connectedOnce).worker? 1).map (·.transaction) = some 0 ∧
      (((e.through connectedOnce).execute 1 "look" 1 [.text "a"]).2.worker? 1).map
        (·.transaction) = some 1 :=
  ⟨_, rfl, exists_create _ _ _ _ (by decide +kernel)⟩

end Engine

end LiveIsolation
