import LiveIsolation.Fault
import LiveIsolation.Ordered
import LiveIsolation.Value

/-!
# Statement templates

A statement template is one parameterised statement: its kind, its relation and the
bindings of its WHERE clause, which name for a column the placeholder whose argument it is
compared with. Analysis marks the statements that a discipline has to validate.
-/

namespace LiveIsolation

/-- The argument number `placeholder` is compared with `column`. -/
structure Binding where
  placeholder : Nat
  column : String
  deriving DecidableEq, Repr

/-- The columns of a WHERE clause with their values, in the order of the columns. -/
abbrev Columns := List (String × Value)

structure Statement where
  kind : OperationKind
  relation : String
  sql : String := ""
  bindings : List Binding := []
  /-- Analysis leaves the statement out of account. -/
  skipped : Bool := false
  validatedSnapshot : Bool := false
  validatedReadCommitted : Bool := false
  deriving DecidableEq, Repr

namespace Statement

/-- The discipline has to validate the statement. -/
def validated (s : Statement) : Discipline → Bool
  | .snapshot => s.validatedSnapshot
  | .readCommitted => s.validatedReadCommitted

def validatedAny (s : Statement) : Bool := s.validatedSnapshot || s.validatedReadCommitted

def mark (s : Statement) : Discipline → Statement
  | .snapshot => { s with validatedSnapshot := true }
  | .readCommitted => { s with validatedReadCommitted := true }

/-- The columns of the WHERE clause in order, each once. -/
def whereColumns (s : Statement) : List String :=
  Ordered.ofList textLt (s.bindings.map Binding.column)

/-- Gives a column its value; a column that is bound twice takes the later value. -/
def assign (columns : Columns) (column : String) (value : Value) : Columns :=
  Ordered.insertWith textLt (fun _ new => new) column value columns

/-- The columns of the WHERE clause with the arguments bound to them. The first binding
without an argument is reported. -/
def resolve (s : Statement) (args : List Value) : Except Fault Columns :=
  s.bindings.foldlM (fun columns b =>
    match args[b.placeholder]? with
    | some v => .ok (assign columns b.column v)
    | none => .error (.missingArgument b.placeholder b.column args.length)) []

end Statement

end LiveIsolation
