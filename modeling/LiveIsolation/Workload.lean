import LiveIsolation.ConflictGraph.Danger

/-!
# Registration and analysis

Transactions and their statements are registered one by one; analysis then builds the
conflict graph of all templates, finds the dangerous statements and marks them. What comes
out is a workload, which no longer changes.
-/

namespace LiveIsolation

/-- What a statement is registered with. -/
structure StatementSpec where
  kind : OperationKind
  relation : String
  sql : String := ""
  bindings : List Binding := []
  skipped : Bool := false
  deriving DecidableEq, Repr

/-- The text that is kept for a statement of some kind on some relation, by the text that it is
registered with. -/
abbrev SqlRule := OperationKind → String → String → Except Fault String

namespace SqlRule

def identity : SqlRule := fun _ _ sql => .ok sql

/-- The text with the first occurrence of `old` replaced by `new`. -/
def replaceFirst (old new : List Char) : List Char → List Char
  | [] => []
  | c :: rest =>
    if old.isPrefixOf (c :: rest) then new ++ (c :: rest).drop old.length
    else c :: replaceFirst old new rest

/-- Makes every statement also report the version of its row. -/
def reportVersion : SqlRule := fun kind _ sql =>
  if kind.isWrite then .ok (sql ++ " RETURNING version")
  else
    .ok (String.ofList (replaceFirst "SELECT ".toList "SELECT version, ".toList sql.toList))

/-- Refuses every statement. -/
def refuse : SqlRule := fun _ _ _ => .error (.reported .invalidInput "unsupported statement")

end SqlRule

/-- The registered templates; a template's number is its place. -/
structure Registry where
  templates : List Transaction := []
  deriving DecidableEq, Repr

/-- The result of analysis. -/
structure Workload where
  templates : List Transaction
  graph : ConflictGraph
  report : DangerReport
  deriving DecidableEq, Repr

namespace Registry

def find? (r : Registry) (name : String) : Option Transaction :=
  r.templates.find? (·.name == name)

/-- Registers a transaction and answers its number. -/
def addTransaction (r : Registry) (name : String) : Except Fault Nat × Registry :=
  if Text.isBlank name then (.error .blankTransactionName, r)
  else if (r.find? name).isSome then (.error (.transactionExists name), r)
  else
    let id := r.templates.length
    (.ok id, ⟨r.templates ++ [{ id := id, name := name }]⟩)

/-- Registers a statement at the end of a transaction and answers its place. -/
def addStatement (r : Registry) (rule : SqlRule) (transaction : String)
    (spec : StatementSpec) : Except Fault Nat × Registry :=
  match r.find? transaction with
  | none => (.error (.transactionMissing transaction), r)
  | some t =>
    if Text.isBlank spec.relation then (.error (.blankRelation transaction), r)
    else
      match rule spec.kind spec.relation spec.sql with
      | .error e => (.error (.sqlRefused e), r)
      | .ok sql =>
        match t.push { spec with sql } with
        | .error e => (.error e, r)
        | .ok (i, t) => (.ok i, ⟨r.templates.set t.id t⟩)

/-- The registry after a call that has to be accepted. -/
def accepted {α : Type} : Except Fault α × Registry → Except Fault Registry
  | (.ok _, r) => .ok r
  | (.error e, _) => .error e

/-- Registers transactions with their statements as they stand; the first fault ends it. -/
def ofList (transactions : List (String × List StatementSpec)) : Except Fault Registry :=
  transactions.foldlM (fun (r : Registry) (name, specs) => do
    let r ← accepted (r.addTransaction name)
    specs.foldlM (fun r spec => accepted (r.addStatement SqlRule.identity name spec)) r) {}

/-- Analyses the registered templates. A template without statements is refused. -/
def analyze (r : Registry) : Except Fault Workload :=
  match r.templates.find? (·.statements.isEmpty) with
  | some t => .error (.emptyTransaction t.name)
  | none =>
    let graph := ConflictGraph.build r.templates
    let report := graph.dangers
    match report.applyTo r.templates with
    | (.ok (), templates) => .ok { templates, graph, report }
    | (.error e, _) => .error e

end Registry

namespace Workload

def find? (w : Workload) (name : String) : Option Transaction :=
  w.templates.find? (·.name == name)

/-- The relations of all statements in order, those of skipped statements too. -/
def relations (w : Workload) : List String :=
  Ordered.ofList textLt ((w.templates.flatMap (·.statements)).map (·.relation))

theorem mem_relations {w : Workload} {r : String} :
    r ∈ w.relations ↔ ∃ t ∈ w.templates, ∃ s ∈ t.statements, s.relation = r := by
  simp only [relations, Ordered.mem_ofList, List.mem_map, List.mem_flatMap]
  constructor
  · rintro ⟨s, ⟨t, ht, hs⟩, rfl⟩
    exact ⟨t, ht, s, hs, rfl⟩
  · rintro ⟨t, ht, s, hs, rfl⟩
    exact ⟨s, ⟨t, ht, hs⟩, rfl⟩

end Workload

end LiveIsolation
