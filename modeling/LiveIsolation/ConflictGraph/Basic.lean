import LiveIsolation.Transaction

/-!
# Conflict graphs

The nodes of a conflict graph are transaction templates, given by number. An edge says that
a statement of one template and a statement of another may touch one row, at least one of
them writing, and that the first may come before the second. Both directions of a conflict
carry the same name.
-/

namespace LiveIsolation

inductive EdgeKind where
  | readWrite
  | writeRead
  | writeWrite
  deriving DecidableEq, Repr, Inhabited

structure Edge where
  source : Nat
  target : Nat
  kind : EdgeKind
  name : String
  sourceIndex : Nat
  targetIndex : Nat
  deriving DecidableEq, Repr

namespace Edge

def sourceRef (e : Edge) : StatementRef := ⟨e.source, e.sourceIndex⟩
def targetRef (e : Edge) : StatementRef := ⟨e.target, e.targetIndex⟩

/-- The edge joins two nodes, in either direction. -/
def joins (e : Edge) (a b : Nat) : Bool :=
  (e.source == a && e.target == b) || (e.source == b && e.target == a)

theorem joins_comm (e : Edge) (a b : Nat) : e.joins a b = e.joins b a := by
  simp [joins, Bool.or_comm]

end Edge

/-- A graph on the nodes below `nodes`; edges are known by their place in the list. -/
structure ConflictGraph where
  nodes : Nat
  edges : List Edge
  deriving DecidableEq, Repr

namespace ConflictGraph

/-- The edges that leave a node of the graph, in order, each with its place. -/
def exits (g : ConflictGraph) (node : Nat) : List (Edge × Nat) :=
  if node < g.nodes then g.edges.zipIdx.filter fun (e, _) => e.source == node else []

/-- The exits of every node, worked out once. -/
def exitTable (g : ConflictGraph) : Array (List (Edge × Nat)) :=
  ((List.range g.nodes).map g.exits).toArray

/-- The places of the edges that leave a node of the graph, in order. -/
def outgoing (g : ConflictGraph) (node : Nat) : List Nat := (g.exits node).map Prod.snd

/-- The edges between two nodes, in either direction. -/
def between (g : ConflictGraph) (a b : Nat) : List Edge := g.edges.filter (·.joins a b)

/-- Every edge that leaves a node of the graph leads to a node of the graph. -/
def closed (g : ConflictGraph) : Bool :=
  g.edges.all fun e => decide (e.source < g.nodes → e.target < g.nodes)

theorem mem_exits {g : ConflictGraph} {node i : Nat} {e : Edge} :
    (e, i) ∈ g.exits node ↔ node < g.nodes ∧ g.edges[i]? = some e ∧ e.source = node := by
  unfold exits
  split
  · rename_i h
    simp [List.mem_zipIdx_iff_getElem?, h]
  · rename_i h
    simp [h]

theorem exitTable_getD (g : ConflictGraph) (node : Nat) :
    g.exitTable.getD node [] = g.exits node := by
  by_cases h : node < g.nodes
  · simp [exitTable, h]
  · simp [exitTable, exits, h]

theorem mem_outgoing {g : ConflictGraph} {node i : Nat} :
    i ∈ g.outgoing node ↔ node < g.nodes ∧ ∃ e, g.edges[i]? = some e ∧ e.source = node := by
  simp [outgoing, mem_exits]

theorem mem_between {g : ConflictGraph} {a b : Nat} {e : Edge} :
    e ∈ g.between a b ↔ e ∈ g.edges ∧ e.joins a b := by
  simp [between]

end ConflictGraph

end LiveIsolation
