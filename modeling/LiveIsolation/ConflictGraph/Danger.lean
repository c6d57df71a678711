import LiveIsolation.ConflictGraph.Build
import LiveIsolation.ConflictGraph.Cycle

/-!
# Dangerous statements

A cycle with an edge from a read to a write endangers read committed, and both ends of every
such edge have to be validated under it. Two such edges in a row endanger snapshot isolation,
and both ends of the second have to be validated. The report of an analysis holds the cycles
and the statements to validate, and is applied to templates by marking their statements.
-/

namespace LiveIsolation

structure DangerReport where
  cycles : List Cycle := []
  readCommitted : List StatementRef := []
  snapshot : List StatementRef := []
  deriving DecidableEq, Repr

namespace Cycle

/-- The statements that read committed has to validate because of the cycle. -/
def readCommittedRefs (c : Cycle) (g : ConflictGraph) : List StatementRef :=
  ((c.edgesIn g).filter (·.kind == .readWrite)).flatMap fun e => [e.sourceRef, e.targetRef]

/-- The statements that snapshot isolation has to validate because of the cycle. -/
def snapshotRefs (c : Cycle) (g : ConflictGraph) : List StatementRef :=
  (c.consecutiveReadWrites g).flatMap fun k =>
    match (c.edgesIn g)[k]? with
    | some e => [e.sourceRef, e.targetRef]
    | none => []

end Cycle

namespace ConflictGraph

/-- The report of a graph whose edges stay inside it. -/
def dangers (g : ConflictGraph) : DangerReport :=
  let cycles := g.cycles
  { cycles
    readCommitted := Ordered.ofList StatementRef.lt (cycles.flatMap (·.readCommittedRefs g))
    snapshot := Ordered.ofList StatementRef.lt (cycles.flatMap (·.snapshotRefs g)) }

/-- The report of a graph, unless an edge leads out of it. -/
def dangers? (g : ConflictGraph) : Option DangerReport :=
  if g.closed then some g.dangers else none

end ConflictGraph

namespace DangerReport

def unsafeReadCommitted (r : DangerReport) (g : ConflictGraph) : List Cycle :=
  r.cycles.filter (·.unsafeReadCommitted g)

def unsafeSnapshot (r : DangerReport) (g : ConflictGraph) : List Cycle :=
  r.cycles.filter (·.unsafeSnapshot g)

/-- The marks of the report, those for read committed first. -/
def marks (r : DangerReport) : List (StatementRef × Discipline) :=
  r.readCommitted.map (·, .readCommitted) ++ r.snapshot.map (·, .snapshot)

/-- Marks one statement. A reference to no statement of the templates is an internal fault. -/
def markOne (templates : List Transaction) (ref : StatementRef) (d : Discipline) :
    Except Fault (List Transaction) :=
  match templates[ref.template]? with
  | none => .error (.unknownTemplate ref.template)
  | some t =>
    match t.mark? ref.index d with
    | none => .error (.missingTemplateStatement ref.template ref.index)
    | some t => .ok (templates.set ref.template t)

/-- Marks statements one after another; those before a fault stay marked. -/
def markAll : List (StatementRef × Discipline) → List Transaction →
    Except Fault Unit × List Transaction
  | [], templates => (.ok (), templates)
  | (ref, d) :: rest, templates =>
    match markOne templates ref d with
    | .ok templates => markAll rest templates
    | .error e => (.error e, templates)

def applyTo (r : DangerReport) (templates : List Transaction) :
    Except Fault Unit × List Transaction :=
  markAll r.marks templates

end DangerReport

end LiveIsolation
