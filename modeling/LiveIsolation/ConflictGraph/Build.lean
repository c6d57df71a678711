import LiveIsolation.ConflictGraph.Basic

/-!
# The conflict graph of a workload

For each pair of templates the statements on one relation are compared. A read before a
write of the same relation is dominated when a write of the reading template conflicts with
the same write and addresses the same columns as the reader: that row is locked by the store
anyway. The two directions of a dominated conflict are left out, by name.
-/

namespace LiveIsolation

namespace ConflictGraph

/-- The name of the conflict of two statements. -/
def conflictName (first second : String) (i j : Nat) : String :=
  first ++ "-" ++ second ++ "-" ++ toString i ++ "-" ++ toString j

/-- The two directions of the conflict of one statement of each template, if they conflict. -/
def statementEdges (first second : Transaction) (i j : Nat) (a b : Statement) : List Edge :=
  if a.skipped || b.skipped || a.relation != b.relation then []
  else
    let name := conflictName first.name second.name i j
    let forward := fun kind => (⟨first.id, second.id, kind, name, i, j⟩ : Edge)
    let backward := fun kind => (⟨second.id, first.id, kind, name, j, i⟩ : Edge)
    match a.kind.isWrite, b.kind.isWrite with
    | false, false => []
    | false, true => [forward .readWrite, backward .writeRead]
    | true, false => [backward .readWrite, forward .writeRead]
    | true, true => [forward .writeWrite, backward .writeWrite]

/-- All conflicts of two templates. -/
def pairEdges (first second : Transaction) : List Edge :=
  first.statements.zipIdx.flatMap fun (a, i) =>
    second.statements.zipIdx.flatMap fun (b, j) => statementEdges first second i j a b

/-- The statement at one end of an edge between two templates. -/
def statementAt? (first second : Transaction) (template index : Nat) : Option Statement :=
  if template = first.id then first.statements[index]? else second.statements[index]?

/-- Two statements address their rows by the same columns of the same relation. -/
def sameRow (a b : Statement) : Bool :=
  a.relation == b.relation && a.whereColumns == b.whereColumns

/-- The read at the source of `e` is dominated by a write of its own template. -/
def dominated (first second : Transaction) (edges : List Edge) (e : Edge) : Bool :=
  match e.kind, statementAt? first second e.source e.sourceIndex with
  | .readWrite, some reader =>
    edges.any fun w =>
      w.kind == .writeWrite && w.source == e.source && w.target == e.target &&
        w.targetIndex == e.targetIndex &&
        (match statementAt? first second w.source w.sourceIndex with
          | some writer => sameRow writer reader
          | none => false)
  | _, _ => false

/-- Removes both directions of every dominated conflict. -/
def removeDominated (first second : Transaction) (edges : List Edge) : List Edge :=
  let names := (edges.filter (dominated first second edges)).map Edge.name
  edges.filter fun e => e.kind == .writeWrite || !names.contains e.name

/-- All pairs of a list, the earlier member first. -/
def orderedPairs {α : Type} : List α → List (α × α)
  | [] => []
  | a :: rest => rest.map (fun b => (a, b)) ++ orderedPairs rest

/-- The conflict graph of a list of templates. -/
def build (templates : List Transaction) : ConflictGraph :=
  { nodes := templates.length
    edges := (orderedPairs templates).flatMap fun (first, second) =>
      removeDominated first second (pairEdges first second) }

@[simp] theorem build_nodes (templates : List Transaction) :
    (build templates).nodes = templates.length := rfl

end ConflictGraph

end LiveIsolation
