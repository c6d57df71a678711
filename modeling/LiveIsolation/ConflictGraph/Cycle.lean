import LiveIsolation.ConflictGraph.Basic

/-!
# Cycles

A cycle follows edges from node to node, visits no node twice, and uses each conflict once.
A cycle of more than two nodes counts only if it is induced: no conflict of the graph that
is not its own joins two of its nodes that are not neighbours on it.

The search starts at each node in turn and follows edges to nodes not below the start. When
it comes to a node of its path, the part of the path from there on is a candidate. Candidates
that differ by rotation are one cycle; the first that is found stands for them.
-/

namespace LiveIsolation

/-- A closed walk: `nodes[i]` is where the edge at place `edges[i]` begins. -/
structure Cycle where
  nodes : List Nat
  edges : List Nat
  deriving DecidableEq, Repr

namespace Cycle

/-- The edges of the cycle in order. -/
def edgesIn (c : Cycle) (g : ConflictGraph) : List Edge := c.edges.filterMap (g.edges[·]?)

/-- The list turned so that it begins at place `n`. -/
def turn {α : Type} (n : Nat) (xs : List α) : List α := xs.drop n ++ xs.take n

/-- The place of the first least member. -/
def leastPlace (xs : List Nat) : Nat :=
  match xs.min? with
  | some m => xs.idxOf m
  | none => 0

/-- The edges of the cycle from the one that comes first in the graph. -/
def canonical (c : Cycle) : List Nat := turn (leastPlace c.edges) c.edges

/-- The places `k` such that the edge at `k` and the one before it, cyclically, both go
from a read to a write. -/
def consecutiveReadWrites (c : Cycle) (g : ConflictGraph) : List Nat :=
  let kinds := (c.edgesIn g).map Edge.kind
  let n := kinds.length
  (List.range n).filter fun k =>
    kinds[(k + n - 1) % n]? == some .readWrite && kinds[k]? == some .readWrite

/-- The cycle endangers transactions that run under read committed. -/
def unsafeReadCommitted (c : Cycle) (g : ConflictGraph) : Bool :=
  (c.edgesIn g).any (·.kind == .readWrite)

/-- The cycle endangers transactions that run under snapshot isolation. -/
def unsafeSnapshot (c : Cycle) (g : ConflictGraph) : Bool :=
  !(c.consecutiveReadWrites g).isEmpty

end Cycle

namespace ConflictGraph

/-- Some two members of a list that are not neighbours in it, the earlier one first, satisfy
`p`. -/
def anyApart {α : Type} (p : α → α → Bool) : List α → Bool
  | [] => false
  | a :: rest => (rest.drop 1).any (p a) || anyApart p rest

/-- The same for a list that is closed to a ring, where the ends are neighbours too. -/
def anyApartOnRing {α : Type} (p : α → α → Bool) : List α → Bool
  | [] => false
  | a :: rest => (rest.drop 1).dropLast.any (p a) || anyApart p rest

/-- What leaves each node: the edges with their places. -/
abbrev Exits := Nat → List (Edge × Nat)

/-- A conflict with none of the names joins two nodes, in either direction. -/
def joinedBeside (exits : Exits) (names : List String) (a b : Nat) : Bool :=
  let leads (source target : Nat) : Bool :=
    (exits source).any fun (e, _) => e.target == target && !names.contains e.name
  leads a b || leads b a

/-- A path through the graph, the newest first: its nodes, and the edges between them with
their places. -/
structure Path where
  nodes : List Nat
  edges : List (Edge × Nat)
  deriving DecidableEq, Repr

/-- The cycle that an edge back to a node of the path closes, if it is one: the edge must not
belong to a conflict that the cycle already uses, and a longer cycle must be induced. -/
def close? (exits : Exits) (p : Path) (closing : Edge) (place : Nat) : Option Cycle :=
  let back := p.nodes.idxOf closing.target
  let used := p.edges.take back
  let nodes := (p.nodes.take (back + 1)).reverse
  if used.any (·.1.name == closing.name) then none
  else if 2 < nodes.length &&
      anyApartOnRing (joinedBeside exits (closing.name :: used.map (·.1.name))) nodes then none
  else some ⟨nodes, (place :: used.map (·.2)).reverse⟩

/-- The cycles closed by paths that extend `p`, whose last node is `node`, through nodes not
below `start`. A path has at most as many nodes as the graph, which bounds the search. -/
def search (exits : Exits) (start : Nat) : Nat → Path → Nat → List Cycle
  | 0, _, _ => []
  | depth + 1, p, node =>
    (exits node).flatMap fun (e, i) =>
      if e.target < start then []
      else if p.nodes.contains e.target then (close? exits p e i).toList
      else search exits start depth ⟨e.target :: p.nodes, (e, i) :: p.edges⟩ e.target

/-- All candidates in the order in which the search closes them. -/
def candidates (g : ConflictGraph) : List Cycle :=
  let table := g.exitTable
  (List.range g.nodes).flatMap fun s =>
    search (fun node => table.getD node []) s g.nodes ⟨[s], []⟩ s

/-- The members of a list whose rotation is neither among `seen` nor that of an earlier one. -/
def unseen (seen : List (List Nat)) : List Cycle → List Cycle
  | [] => []
  | c :: rest =>
    let key := c.canonical
    if seen.contains key then unseen seen rest else c :: unseen (key :: seen) rest

/-- Of cycles that differ by rotation only the first stays. -/
def firstOfEach (cs : List Cycle) : List Cycle := unseen [] cs

/-- The cycles of a graph, each once, in the order of their discovery. -/
def cycles (g : ConflictGraph) : List Cycle := firstOfEach g.candidates

theorem anyApart_iff {α : Type} {p : α → α → Bool} {xs : List α} :
    anyApart p xs ↔
      ∃ i j a b, i + 2 ≤ j ∧ xs[i]? = some a ∧ xs[j]? = some b ∧ p a b := by
  induction xs with
  | nil => simp [anyApart]
  | cons x rest ih =>
      simp only [anyApart, Bool.or_eq_true, List.any_eq_true, ih]
      constructor
      · rintro (⟨b, hb, hp⟩ | ⟨i, j, a, b, hij, ha, hb, hp⟩)
        · obtain ⟨j, hj⟩ := List.mem_iff_getElem?.mp hb
          refine ⟨0, j + 2, x, b, by omega, rfl, ?_, hp⟩
          simpa [Nat.add_comm] using hj
        · exact ⟨i + 1, j + 1, a, b, by omega, by simpa using ha, by simpa using hb, hp⟩
      · rintro ⟨i, j, a, b, hij, ha, hb, hp⟩
        obtain ⟨j, rfl⟩ : ∃ k, j = k + 1 := ⟨j - 1, by omega⟩
        cases i with
        | zero =>
            obtain ⟨j, rfl⟩ : ∃ k, j = k + 1 := ⟨j - 1, by omega⟩
            simp only [List.getElem?_cons_zero, Option.some.injEq] at ha
            subst ha
            refine .inl ⟨b, List.mem_iff_getElem?.mpr ⟨j, ?_⟩, hp⟩
            rw [List.getElem?_drop, Nat.add_comm]
            exact hb
        | succ i =>
            exact .inr ⟨i, j, a, b, by omega, by simpa using ha, by simpa using hb, hp⟩

/-- On the nodes of the graph the exits show every conflict between two of them. -/
theorem joinedBeside_iff {g : ConflictGraph} {names : List String} {a b : Nat}
    (ha : a < g.nodes) (hb : b < g.nodes) :
    joinedBeside g.exits names a b ↔ ∃ e ∈ g.between a b, e.name ∉ names := by
  simp only [joinedBeside, Bool.or_eq_true, List.any_eq_true, Prod.exists, mem_exits, ha, hb,
    true_and, Bool.and_eq_true, beq_iff_eq, Bool.not_eq_true', List.contains_eq_mem,
    decide_eq_false_iff_not, mem_between, Edge.joins]
  constructor
  · rintro (⟨e, i, ⟨he, hs⟩, ht, hn⟩ | ⟨e, i, ⟨he, hs⟩, ht, hn⟩)
    · exact ⟨e, ⟨List.mem_of_getElem? he, .inl ⟨hs, ht⟩⟩, hn⟩
    · exact ⟨e, ⟨List.mem_of_getElem? he, .inr ⟨hs, ht⟩⟩, hn⟩
  · rintro ⟨e, ⟨he, ⟨hs, ht⟩ | ⟨hs, ht⟩⟩, hn⟩
    · obtain ⟨i, hi⟩ := List.mem_iff_getElem?.mp he
      exact .inl ⟨e, i, ⟨hi, hs⟩, ht, hn⟩
    · obtain ⟨i, hi⟩ := List.mem_iff_getElem?.mp he
      exact .inr ⟨e, i, ⟨hi, hs⟩, ht, hn⟩

theorem candidates_eq (g : ConflictGraph) :
    g.candidates =
      (List.range g.nodes).flatMap fun s => search g.exits s g.nodes ⟨[s], []⟩ s := by
  simp only [candidates, exitTable_getD]

theorem mem_of_mem_unseen {c : Cycle} {cs : List Cycle} {seen : List (List Nat)}
    (h : c ∈ unseen seen cs) : c ∈ cs := by
  induction cs generalizing seen with
  | nil => simp [unseen] at h
  | cons d rest ih =>
      simp only [unseen] at h
      split at h
      · exact List.mem_cons_of_mem _ (ih h)
      · rcases List.mem_cons.mp h with rfl | h
        · simp
        · exact List.mem_cons_of_mem _ (ih h)

theorem firstOfEach_subset {c : Cycle} {cs : List Cycle} (h : c ∈ firstOfEach cs) : c ∈ cs :=
  mem_of_mem_unseen h

theorem exists_mem_unseen {c : Cycle} {cs : List Cycle} {seen : List (List Nat)}
    (h : c ∈ cs) (hs : c.canonical ∉ seen) :
    ∃ d ∈ unseen seen cs, d.canonical = c.canonical := by
  induction cs generalizing seen with
  | nil => simp at h
  | cons a rest ih =>
      simp only [unseen, List.contains_eq_mem, decide_eq_true_eq]
      split
      · rename_i ha
        rcases List.mem_cons.mp h with rfl | h
        · exact absurd ha hs
        · exact ih h hs
      · by_cases hc : c.canonical = a.canonical
        · exact ⟨a, by simp, hc.symm⟩
        · have hr : c ∈ rest := by
            rcases List.mem_cons.mp h with rfl | h
            · exact absurd rfl hc
            · exact h
          have hn : c.canonical ∉ a.canonical :: seen := by simp [hc, hs]
          obtain ⟨d, hd, he⟩ := ih hr hn
          exact ⟨d, List.mem_cons_of_mem _ hd, he⟩

/-- Every candidate is represented by a cycle with the same rotation. -/
theorem exists_mem_firstOfEach {c : Cycle} {cs : List Cycle} (h : c ∈ cs) :
    ∃ d ∈ firstOfEach cs, d.canonical = c.canonical :=
  exists_mem_unseen h (by simp)

theorem canonical_notMem_of_mem_unseen {c : Cycle} {cs : List Cycle} {seen : List (List Nat)}
    (h : c ∈ unseen seen cs) : c.canonical ∉ seen := by
  induction cs generalizing seen with
  | nil => simp [unseen] at h
  | cons a rest ih =>
      simp only [unseen, List.contains_eq_mem, decide_eq_true_eq] at h
      split at h
      · exact ih h
      · rename_i ha
        rcases List.mem_cons.mp h with rfl | h
        · exact ha
        · exact fun hc => ih h (List.mem_cons_of_mem _ hc)

/-- No two of the cycles that stay differ by rotation only. -/
theorem firstOfEach_pairwise (cs : List Cycle) :
    (firstOfEach cs).Pairwise fun c d => c.canonical ≠ d.canonical := by
  suffices h : ∀ seen, (unseen seen cs).Pairwise fun c d => c.canonical ≠ d.canonical from h []
  induction cs with
  | nil => simp [unseen]
  | cons a rest ih =>
      intro seen
      simp only [unseen]
      split
      · exact ih seen
      · refine List.pairwise_cons.mpr ⟨fun d hd he => ?_, ih _⟩
        exact canonical_notMem_of_mem_unseen hd (by simp [he])

end ConflictGraph

end LiveIsolation
