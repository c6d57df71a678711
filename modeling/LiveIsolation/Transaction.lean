import LiveIsolation.Statement

/-!
# Transaction templates

A transaction template is the registered shape of one type of transaction: a name, a
number, and at most fifteen statement templates in order.
-/

namespace LiveIsolation

/-- A statement of a workload: the number of its template and its place there. -/
structure StatementRef where
  template : Nat
  index : Nat
  deriving DecidableEq, Repr, Inhabited

/-- References in the order of their templates, then of their places. -/
def StatementRef.lt (a b : StatementRef) : Bool :=
  decide (a.template < b.template) ||
    (decide (a.template = b.template) && decide (a.index < b.index))

structure Transaction where
  id : Nat
  name : String
  statements : List Statement := []
  deriving DecidableEq, Repr

namespace Transaction

/-- The number of statements that a template can hold. -/
def capacity : Nat := 15

/-- Adds a statement at the end and answers its place. -/
def push (t : Transaction) (s : Statement) : Except Fault (Nat × Transaction) :=
  if t.statements.length < capacity then
    .ok (t.statements.length, { t with statements := t.statements ++ [s] })
  else .error (.transactionFull t.name capacity)

/-- Marks a statement for a discipline, if it exists. -/
def mark? (t : Transaction) (index : Nat) (d : Discipline) : Option Transaction :=
  t.statements[index]?.map fun s => { t with statements := t.statements.set index (s.mark d) }

theorem push_eq_ok_iff {t u : Transaction} {s : Statement} {i : Nat} :
    t.push s = .ok (i, u) ↔
      t.statements.length < capacity ∧ i = t.statements.length ∧
        u = { t with statements := t.statements ++ [s] } := by
  unfold push
  split
  · rename_i h
    simp [h, eq_comm]
  · rename_i h
    simp [h]

end Transaction

end LiveIsolation
