import LiveIsolation.Engine.Execute

/-!
# How statements end

A statement is refused before anything happens, is left without a row to record, takes its
transaction with it, or is answered. Everything that is said about statements goes through
these cases.
-/

namespace LiveIsolation

namespace Statement
theorem resolve_of_isEmpty {s : Statement} (h : s.bindings.isEmpty = true) (args : List Value) :
    s.resolve args = .ok [] := by
  rw [List.isEmpty_iff] at h
  rw [resolve, h]
  rfl
end Statement

namespace Engine

variable {e : Engine} {w : Worker}

/-- The engine after a transaction has begun, if none was open. -/
abbrev begun (e : Engine) (w : Worker) (template : Transaction) : Engine :=
  (e.opened w template).2.1

/-- The worker after a transaction has begun, if none was open. -/
abbrev beginner (e : Engine) (w : Worker) (template : Transaction) : Worker :=
  (e.opened w template).2.2

/-- How a statement of a worker ends. -/
inductive Executed (e : Engine) (w : Worker) (name : String) (index : Nat)
    (args : List Value) : Except Fault Outcome → Engine → Prop where
  | refused (f : Fault) (h : e.ready w name index args = .error f) :
    Executed e w name index args (.error f) e
  | keyless (q : ReadyStatement) (f : Fault) (h : e.ready w name index args = .ok q)
    (hkey : (e.begun w q.template).keyIn (e.opened w q.template).1 q = .error f) :
    Executed e w name index args (.error f) ((e.begun w q.template).put (e.beginner w q.template))
  | lost (q : ReadyStatement) (key : Option RowKey) (f : Fault)
    (h : e.ready w name index args = .ok q)
    (hkey : (e.begun w q.template).keyIn (e.opened w q.template).1 q = .ok key)
    (hexec : (e.beginner w q.template).link.execute (e.begun w q.template).store q.statement args =
      .error f) :
    Executed e w name index args (.error f)
      (((e.begun w q.template).abandon (e.beginner w q.template)).1.put
        ((e.begun w q.template).abandon (e.beginner w q.template)).2)
  | answered (q : ReadyStatement) (key : Option RowKey) (outcome : Outcome) (link : Link)
    (h : e.ready w name index args = .ok q)
    (hkey : (e.begun w q.template).keyIn (e.opened w q.template).1 q = .ok key)
    (hexec : (e.beginner w q.template).link.execute (e.begun w q.template).store q.statement args =
      .ok (outcome, link)) :
    Executed e w name index args (.ok outcome)
      ((e.begun w q.template).put
        { e.beginner w q.template with
          link
          current := some (key.elim (e.opened w q.template).1 fun k =>
            (e.opened w q.template).1.record q k outcome.version) })

theorem execute_inv {id : Nat} (hw : e.worker? id = some w) (name : String) (index : Nat)
    (args : List Value) :
    Executed e w name index args (e.execute id name index args).1
      (e.execute id name index args).2 := by
  cases hready : e.ready w name index args with
  | error f =>
      have h : e.execute id name index args = (.error f, e) := by
        simp only [execute, withWorker, hw, hready]
      rw [h]
      exact .refused f hready
  | ok q =>
      cases hkey : (e.begun w q.template).keyIn (e.opened w q.template).1 q with
      | error f =>
          have h : e.execute id name index args =
              (.error f, (e.begun w q.template).put (e.beginner w q.template)) := by
            simp only [execute, withWorker, hw, hready, hkey]
          rw [h]
          exact .keyless q f hready hkey
      | ok key =>
          cases hexec : (e.beginner w q.template).link.execute (e.begun w q.template).store
            q.statement args with
          | error f =>
              have h : e.execute id name index args =
                  (.error f, ((e.begun w q.template).abandon (e.beginner w q.template)).1.put
                    ((e.begun w q.template).abandon (e.beginner w q.template)).2) := by
                simp only [execute, withWorker, hw, hready, hkey, hexec]
              rw [h]
              exact .lost q key f hready hkey hexec
          | ok done =>
              have h : e.execute id name index args =
                  (.ok done.1, (e.begun w q.template).put
                    { e.beginner w q.template with
                      link := done.2
                      current := some (key.elim (e.opened w q.template).1 fun k =>
                        (e.opened w q.template).1.record q k done.1.version) }) := by
                simp only [execute, withWorker, hw, hready, hkey, hexec]
              rw [h]
              exact .answered q key done.1 done.2 hready hkey hexec

theorem execute_of_none {id : Nat} (hw : e.worker? id = none) (name : String) (index : Nat)
    (args : List Value) : e.execute id name index args = (.error (.workerClosed id), e) := by
  simp only [execute, withWorker, hw]

/-- A transaction that begins gets a number and is counted. -/
theorem opened_eq (e : Engine) (w : Worker) (template : Transaction) :
    (w.current = some (e.opened w template).1 ∧ e.begun w template = e ∧
        e.beginner w template = w) ∨
      (w.current = none ∧
        (e.opened w template).1 = { template, sampled := e.config.samples e.nextTransaction } ∧
        e.begun w template =
          { e with nextTransaction := e.nextTransaction + 1, counters := e.counters.start } ∧
        e.beginner w template = { w with
          transaction := e.nextTransaction, current := some (e.opened w template).1 }) := by
  cases hcurrent : w.current with
  | some t =>
      have h : e.opened w template = (t, e, w) := by simp only [opened, hcurrent]
      rw [begun, beginner, h]
      exact .inl ⟨rfl, rfl, rfl⟩
  | none =>
      refine .inr ⟨rfl, ?_⟩
      simp only [begun, beginner, opened, hcurrent, and_self]

/-- Nothing but the counters and the number of the next transaction changes. -/
theorem begun_eq (e : Engine) (w : Worker) (template : Transaction) :
    ∃ counters next,
      e.begun w template = { e with counters, nextTransaction := next } := by
  rcases e.opened_eq w template with ⟨-, hbegun, -⟩ | ⟨-, -, hbegun, -⟩
  · exact ⟨e.counters, e.nextTransaction, hbegun⟩
  · exact ⟨_, _, hbegun⟩

theorem beginner_id (e : Engine) (w : Worker) (template : Transaction) :
    (e.beginner w template).id = w.id := by
  rcases e.opened_eq w template with ⟨-, -, hbeginner⟩ | ⟨-, -, -, hbeginner⟩
  · rw [hbeginner]
  · rw [hbeginner]

theorem beginner_link (e : Engine) (w : Worker) (template : Transaction) :
    (e.beginner w template).link = w.link := by
  rcases e.opened_eq w template with ⟨-, -, hbeginner⟩ | ⟨-, -, -, hbeginner⟩
  · rw [hbeginner]
  · rw [hbeginner]

/-- What is bound has the row that the arguments give, if it has one; a marked statement has one. -/
theorem bound_eq_ok {keys : KeyRule} {args : List Value} {template : Transaction} {index : Nat}
    {statement : Statement} {q : ReadyStatement}
    (h : (do
      let columns ←
        if statement.bindings.isEmpty then pure none else some <$> statement.resolve args
      let needed := statement.validatedAny || (columns.isSome && statement.kind.isWrite)
      let key ← if needed then some <$> keys statement.relation (columns.getD []) else pure none
      return ({ template, index, statement, columns, key } : ReadyStatement)) = .ok q) :
    q.template = template ∧ q.statement = statement ∧
      ∃ columns, statement.resolve args = .ok columns ∧ (∀ c, q.columns = some c → c = columns) ∧
        (statement.validatedAny = true → q.key.isSome = true) ∧
        ∀ k, q.key = some k → keys statement.relation columns = .ok k := by
  have hkey : ∀ (columns : Option Columns) (needed : Bool),
      (do
        let key ← if needed then some <$> keys statement.relation (columns.getD []) else pure none
        return ({ template, index, statement, columns, key } : ReadyStatement)) = .ok q →
      q.template = template ∧ q.statement = statement ∧ q.columns = columns ∧
        (needed = true → q.key.isSome = true) ∧
        ∀ k, q.key = some k → keys statement.relation (columns.getD []) = .ok k := by
    intro columns needed h
    cases needed with
    | false =>
        cases h
        exact ⟨rfl, rfl, rfl, nofun, nofun⟩
    | true =>
        cases hk : keys statement.relation (columns.getD []) with
        | error f => simp [hk, bind, Except.bind, Functor.map, Except.map] at h
        | ok key =>
            simp only [hk, if_true] at h
            cases h
            refine ⟨rfl, rfl, rfl, fun _ => rfl, ?_⟩
            intro k hk'
            exact congrArg Except.ok (Option.some.inj hk')
  have hmarked : ∀ {other : Bool}, statement.validatedAny = true →
      (statement.validatedAny || other) = true := by
    intro other hv
    rw [hv, Bool.true_or]
  cases hempty : statement.bindings.isEmpty with
  | true =>
      simp only [hempty, if_true] at h
      obtain ⟨htemplate, hstatement, hcolumns, hsome, hkeys⟩ := hkey none _ h
      refine ⟨htemplate, hstatement, [], Statement.resolve_of_isEmpty hempty args, ?_,
        fun hv => hsome (hmarked hv), hkeys⟩
      intro c hc
      rw [hcolumns] at hc
      cases hc
  | false =>
      simp only [hempty, Bool.false_eq_true, if_false] at h
      cases hresolve : statement.resolve args with
      | error f =>
          rw [hresolve] at h
          cases h
      | ok columns =>
          rw [hresolve] at h
          obtain ⟨htemplate, hstatement, hcolumns, hsome, hkeys⟩ := hkey (some columns) _ h
          refine ⟨htemplate, hstatement, columns, rfl, ?_, fun hv => hsome (hmarked hv), hkeys⟩
          intro c hc
          rw [hcolumns] at hc
          exact (Option.some.inj hc).symm

/-- What is bound has columns if the statement binds one. Its row is asked for if the statement is
marked, or writes and binds a column. -/
theorem bound_asks {keys : KeyRule} {args : List Value} {template : Transaction} {index : Nat}
    {statement : Statement} {q : ReadyStatement}
    (h : (do
      let columns ←
        if statement.bindings.isEmpty then pure none else some <$> statement.resolve args
      let needed := statement.validatedAny || (columns.isSome && statement.kind.isWrite)
      let key ← if needed then some <$> keys statement.relation (columns.getD []) else pure none
      return ({ template, index, statement, columns, key } : ReadyStatement)) = .ok q) :
    q.columns.isSome = !statement.bindings.isEmpty ∧
      q.key.isSome = (statement.validatedAny ||
        (!statement.bindings.isEmpty && statement.kind.isWrite)) := by
  have hkey : ∀ (columns : Option Columns) (needed : Bool),
      (do
        let key ← if needed then some <$> keys statement.relation (columns.getD []) else pure none
        return ({ template, index, statement, columns, key } : ReadyStatement)) = .ok q →
      q.columns = columns ∧ q.key.isSome = needed := by
    intro columns needed h
    cases needed with
    | false =>
        cases h
        exact ⟨rfl, rfl⟩
    | true =>
        cases hk : keys statement.relation (columns.getD []) with
        | error f => simp [hk, bind, Except.bind, Functor.map, Except.map] at h
        | ok key =>
            simp only [hk, if_true] at h
            cases h
            exact ⟨rfl, rfl⟩
  cases hempty : statement.bindings.isEmpty with
  | true =>
      simp only [hempty, if_true] at h
      obtain ⟨hcolumns, hneeded⟩ := hkey none _ h
      rw [hcolumns]
      exact ⟨rfl, hneeded⟩
  | false =>
      simp only [hempty, Bool.false_eq_true, if_false] at h
      cases hresolve : statement.resolve args with
      | error f =>
          rw [hresolve] at h
          cases h
      | ok columns =>
          rw [hresolve] at h
          obtain ⟨hcolumns, hneeded⟩ := hkey (some columns) _ h
          rw [hcolumns]
          exact ⟨rfl, hneeded⟩

/-- What is ready is a statement of the workload whose arguments have been bound. -/
theorem ready_bound {name : String} {index : Nat} {args : List Value} {q : ReadyStatement}
    (h : e.ready w name index args = .ok q) :
    ∃ template statement, e.workload.find? name = some template ∧
      template.statements[index]? = some statement ∧
      (do
        let columns ←
          if statement.bindings.isEmpty then pure none else some <$> statement.resolve args
        let needed := statement.validatedAny || (columns.isSome && statement.kind.isWrite)
        let key ← if needed then some <$> e.keys statement.relation (columns.getD []) else pure none
        return ({ template, index, statement, columns, key } : ReadyStatement)) = .ok q := by
  cases htemplate : e.workload.find? name with
  | none =>
      simp only [ready, htemplate] at h
      cases h
  | some template =>
      cases hstatement : template.statements[index]? with
      | none =>
          simp only [ready, htemplate, hstatement] at h
          cases h
      | some statement =>
          refine ⟨template, statement, rfl, hstatement, ?_⟩
          cases hcurrent : w.current with
          | none =>
              simp only [ready, htemplate, hstatement, hcurrent] at h
              exact h
          | some t =>
              by_cases hid : t.template.id = template.id
              · simp only [ready, htemplate, hstatement, hcurrent, hid, ne_eq, not_true_eq_false,
                  if_false] at h
                exact h
              · simp only [ready, htemplate, hstatement, hcurrent, ne_eq, hid, not_false_eq_true,
                  if_true] at h
                cases h

/-- What is ready is a statement of the workload, with the row that its arguments give. A marked
statement has its row. -/
theorem ready_inv {name : String} {index : Nat} {args : List Value} {q : ReadyStatement}
    (h : e.ready w name index args = .ok q) :
    e.workload.find? name = some q.template ∧ q.template.statements[index]? = some q.statement ∧
      ∃ columns, q.statement.resolve args = .ok columns ∧ (∀ c, q.columns = some c → c = columns) ∧
        (q.statement.validatedAny = true → q.key.isSome = true) ∧
        ∀ k, q.key = some k → e.keys q.statement.relation columns = .ok k := by
  obtain ⟨template, statement, htemplate, hstatement, hbound⟩ := ready_bound h
  obtain ⟨htemplate', hstatement', hcolumns⟩ := bound_eq_ok hbound
  rw [htemplate', hstatement']
  exact ⟨htemplate, hstatement, hcolumns⟩

/-- In a transaction the row of a statement is asked for if the statement is marked, or binds a
column and the transaction is sampled or the statement writes. -/
theorem keyIn_asks {name : String} {index : Nat} {args : List Value} {q : ReadyStatement}
    {t : OpenTransaction} {key : Option RowKey} {e' : Engine}
    (h : e.ready w name index args = .ok q) (hkey : e'.keyIn t q = .ok key) :
    key.isSome = (q.statement.validatedAny ||
      (!q.statement.bindings.isEmpty && (q.statement.kind.isWrite || t.sampled))) := by
  obtain ⟨template, statement, -, -, hbound⟩ := ready_bound h
  obtain ⟨-, hstatement, -⟩ := bound_eq_ok hbound
  obtain ⟨hcolumns, hneeded⟩ := bound_asks hbound
  rw [hstatement]
  simp only [keyIn] at hkey
  cases hk : q.key with
  | some k =>
      rw [hk] at hkey hneeded
      cases hkey
      -- a row that is asked for before the transaction begins is asked for in all of them
      have hmore : ∀ a b c d : Bool, true = (a || (!b && c)) → true = (a || (!b && (c || d))) := by
        decide
      exact hmore _ _ _ _ hneeded
  | none =>
      rw [hk] at hkey hneeded
      cases hc : q.columns with
      | none =>
          rw [hc] at hkey hcolumns
          cases hkey
          simp_all
      | some columns =>
          rw [hc] at hkey hcolumns
          cases hs : t.sampled with
          | false =>
              simp only [hs, Bool.false_eq_true, if_false] at hkey
              cases hkey
              simp_all
          | true =>
              simp only [hs, if_true] at hkey
              cases hr : e'.keys q.statement.relation columns with
              | error f =>
                  rw [hr] at hkey
                  cases hkey
              | ok k =>
                  rw [hr] at hkey
                  cases hkey
                  simp_all

/-- The row that a transaction records is the one that the arguments give. -/
theorem keyIn_of_ready {name : String} {index : Nat} {args : List Value} {q : ReadyStatement}
    {t : OpenTransaction} {key : RowKey} {e' : Engine} (h : e.ready w name index args = .ok q)
    (hkeys : e'.keys = e.keys) (hkey : e'.keyIn t q = .ok (some key)) :
    ∃ columns, q.statement.resolve args = .ok columns ∧
      e.keys q.statement.relation columns = .ok key := by
  obtain ⟨-, -, columns, hresolve, hcolumns, -, hq⟩ := ready_inv h
  refine ⟨columns, hresolve, ?_⟩
  simp only [keyIn] at hkey
  split at hkey
  · rename_i c _ hc
    split at hkey
    · rw [hkeys, hcolumns c hc] at hkey
      cases hk : e.keys q.statement.relation columns with
      | error f =>
          rw [hk] at hkey
          cases hkey
      | ok k =>
          rw [hk] at hkey
          cases hkey
          rfl
    · cases hkey
  · exact hq key (Except.ok.inj hkey)

/-- A statement that is ready, by the numbers of rows. -/
def readyStatement (number : String → Columns → RowKey) (template : Transaction) (index : Nat)
    (statement : Statement) (columns : Columns) : ReadyStatement where
  template
  index
  statement
  columns := if statement.bindings.isEmpty then none else some columns
  key :=
    if statement.validatedAny || (!statement.bindings.isEmpty && statement.kind.isWrite) then
      some (number statement.relation columns)
    else none

/-- What is left of getting a statement ready once it has been found. -/
theorem bound_eq (number : String → Columns → RowKey) {args : List Value} {template : Transaction}
    {index : Nat} {statement : Statement}
    (hnone : statement.bindings.isEmpty = true → statement.resolve args = .ok []) :
    (do
      let columns ←
        if statement.bindings.isEmpty then pure none else some <$> statement.resolve args
      let needed := statement.validatedAny || (columns.isSome && statement.kind.isWrite)
      let key ← if needed then
          some <$> (Except.ok (number statement.relation (columns.getD [])) : Except Fault RowKey)
        else pure none
      return ({ template, index, statement, columns, key } : ReadyStatement)) =
      (statement.resolve args).map (readyStatement number template index statement) := by
  cases hempty : statement.bindings.isEmpty with
  | true =>
      cases hv : statement.validatedAny <;>
        simp [hnone hempty, readyStatement, hempty, hv, bind, Except.bind, pure, Except.pure,
          Functor.map, Except.map]
  | false =>
      cases hcols : statement.resolve args with
      | error f => simp [bind, Except.bind, Functor.map, Except.map]
      | ok columns =>
          cases hv : statement.validatedAny <;> cases hw : statement.kind.isWrite <;>
            simp [readyStatement, hempty, hv, hw, bind, Except.bind, pure, Except.pure,
              Functor.map, Except.map]

/-- A statement of the workload is ready if its arguments can be bound. -/
theorem ready_eq (hkeys : e.keys.Total) {name : String} {index : Nat}
    {args : List Value} {template : Transaction} {statement : Statement}
    (htemplate : e.workload.find? name = some template)
    (hstatement : template.statements[index]? = some statement)
    (hbound : ∀ t, w.current = some t → t.template.id = template.id) :
    e.ready w name index args =
      (statement.resolve args).map (readyStatement e.keys.number template index statement) := by
  have hnone : statement.bindings.isEmpty = true → statement.resolve args = .ok [] :=
    fun h => Statement.resolve_of_isEmpty h args
  obtain hcurrent | ⟨t, hcurrent, hid⟩ :
      w.current = none ∨ ∃ t, w.current = some t ∧ t.template.id = template.id := by
    cases hcurrent : w.current with
    | none => exact .inl rfl
    | some t => exact .inr ⟨t, rfl, hbound t hcurrent⟩
  · simp only [ready, htemplate, hstatement, hkeys.eq_number, hcurrent]
    exact bound_eq e.keys.number hnone
  · simp only [ready, htemplate, hstatement, hkeys.eq_number, hcurrent, hid, ne_eq,
      not_true_eq_false, if_false]
    exact bound_eq e.keys.number hnone

/-- What is ready is a statement of the workload whose arguments can be bound. -/
theorem ready_eq_ok (hkeys : e.keys.Total) {name : String} {index : Nat}
    {args : List Value} {q : ReadyStatement} (h : e.ready w name index args = .ok q) :
    ∃ columns, e.workload.find? name = some q.template ∧
      q.template.statements[index]? = some q.statement ∧
      (∀ t, w.current = some t → t.template.id = q.template.id) ∧
      q.statement.resolve args = .ok columns ∧
      q = readyStatement e.keys.number q.template index q.statement columns := by
  cases htemplate : e.workload.find? name with
  | none =>
      simp only [ready, htemplate] at h
      cases h
  | some template =>
      cases hstatement : template.statements[index]? with
      | none =>
          simp only [ready, htemplate, hstatement] at h
          cases h
      | some statement =>
          by_cases hbound : ∀ t, w.current = some t → t.template.id = template.id
          · rw [ready_eq hkeys htemplate hstatement hbound] at h
            cases hcols : statement.resolve args with
            | error f =>
                rw [hcols] at h
                cases h
            | ok columns =>
                rw [hcols] at h
                cases h
                exact ⟨columns, rfl, hstatement, hbound, hcols, rfl⟩
          · simp only [Classical.not_forall] at hbound
            obtain ⟨t, hcurrent, hne⟩ := hbound
            simp only [ready, htemplate, hstatement, hcurrent, if_pos hne] at h
            cases h

/-- The number of a row is asked for if the transaction needs it. -/
theorem keyIn_eq (hkeys : e.keys.Total) (t : OpenTransaction) (template : Transaction)
    (index : Nat) (statement : Statement) (columns : Columns) :
    e.keyIn t (readyStatement e.keys.number template index statement columns) =
      .ok (if statement.validatedAny ||
          (!statement.bindings.isEmpty && (statement.kind.isWrite || t.sampled)) then
        some (e.keys.number statement.relation columns)
      else none) := by
  simp only [keyIn, readyStatement]
  cases statement.bindings.isEmpty <;> cases statement.validatedAny <;>
    cases statement.kind.isWrite <;> cases t.sampled <;>
    simp [hkeys.eq_number, Functor.map, Except.map]

end Engine

end LiveIsolation
