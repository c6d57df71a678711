import LiveIsolation.Engine.Basic

/-!
# Statements

A worker runs the statements of one template at a time; the first one begins a transaction.
What can be refused is refused before the transaction begins. A statement that analysis has
marked, or that runs in a sampled transaction, leaves an obligation for the row that it
touched; a write is also remembered, so that its version can be made known after the commit.
-/

namespace LiveIsolation

/-- A statement that is ready to run. -/
structure ReadyStatement where
  template : Transaction
  index : Nat
  statement : Statement
  /-- The columns of the WHERE clause, if it has any. -/
  columns : Option Columns
  /-- The row, if it is needed in any transaction. -/
  key : Option RowKey

namespace Engine

/-- Finds a statement and binds its arguments. -/
def ready (e : Engine) (w : Worker) (name : String) (index : Nat) (args : List Value) :
    Except Fault ReadyStatement := do
  let some template := e.workload.find? name | .error (.unknownTransaction name)
  let some statement := template.statements[index]? | .error (.missingStatement name index)
  if let some current := w.current then
    if current.template.id ≠ template.id then
      .error (.boundElsewhere current.template.name name)
  let columns ←
    if statement.bindings.isEmpty then pure none else some <$> statement.resolve args
  let needed := statement.validatedAny || (columns.isSome && statement.kind.isWrite)
  let key ← if needed then some <$> e.keys statement.relation (columns.getD []) else pure none
  return { template, index, statement, columns, key }

/-- The open transaction of a worker, which begins if there is none. -/
def opened (e : Engine) (w : Worker) (template : Transaction) :
    OpenTransaction × Engine × Worker :=
  match w.current with
  | some current => (current, e, w)
  | none =>
    let number := e.nextTransaction
    let current : OpenTransaction := { template, sampled := e.config.samples number }
    (current, { e with nextTransaction := number + 1, counters := e.counters.start },
      { w with transaction := number, current := some current })

/-- The row of a statement if its transaction needs it: a sampled one needs every row that
the WHERE clause gives. -/
def keyIn (e : Engine) (current : OpenTransaction) (q : ReadyStatement) :
    Except Fault (Option RowKey) :=
  match q.key, q.columns with
  | none, some columns =>
    if current.sampled then some <$> e.keys q.statement.relation columns else .ok none
  | key, _ => .ok key

end Engine

namespace OpenTransaction

/-- The transaction after a statement on a row. A write saw the version before its own. -/
def record (t : OpenTransaction) (q : ReadyStatement) (key : RowKey) (version : Option Nat) :
    OpenTransaction :=
  let s := q.statement
  let observed := if s.kind.isWrite then version.map (· - 1) else version
  let obligation : Obligation := ⟨⟨q.template.id, q.index⟩, s.relation, key, s.kind, observed⟩
  { t with
    written :=
      match s.kind.isWrite, version with
      | true, some v => t.written ++ [((s.relation, key), v)]
      | _, _ => t.written
    obligations := t.obligations.record obligation (s.validatedReadCommitted || t.sampled)
      (s.validatedSnapshot || t.sampled) }

end OpenTransaction

namespace Engine

/-- Runs a statement. A store that fails takes the transaction with it. -/
def execute (e : Engine) (id : Nat) (name : String) (index : Nat) (args : List Value) :
    Except Fault Outcome × Engine :=
  e.withWorker id fun w =>
    match e.ready w name index args with
    | .error f => (.error f, e)
    | .ok q =>
      let (current, e, w) := e.opened w q.template
      match e.keyIn current q with
      | .error f => (.error f, e.put w)
      | .ok key =>
        match w.link.execute e.store q.statement args with
        | .error f =>
          let (e, w) := e.abandon w
          (.error f, e.put w)
        | .ok (outcome, link) =>
          let current := key.elim current fun k => current.record q k outcome.version
          (.ok outcome, e.put { w with link, current := some current })

end Engine

end LiveIsolation
