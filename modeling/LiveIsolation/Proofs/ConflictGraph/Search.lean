import LiveIsolation.Proofs.ConflictGraph.Induced

/-!
# The search for cycles

A path of the search is told by its edges alone: its nodes are their targets and the start, and
also the last node and their sources (`Path.Leads`). What the search finds is what some such path
closes, and every such path is come to (`mem_candidates_iff`). The bound on the depth never ends
the search (`Path.Leads.search_eq`).

## Implementation notes

Paths stand newest first, so that a step of the search is a `cons` on both lists, and inductions
on a path are inductions on its edges. A cycle is read off in reverse (`Path.loop`).
-/

namespace LiveIsolation

namespace ConflictGraph

variable {g : ConflictGraph} {p : Path} {start node depth i : Nat} {e : Edge} {c : Cycle}

/-- The edges of a conflict graph as arcs, with their names as labels. -/
def arcs (g : ConflictGraph) : Multigraph Edge String where
  source := Edge.source
  target := Edge.target
  label := Edge.name
  Has e := e ∈ g.edges

/-- All edges join nodes of the graph. -/
def Inside (g : ConflictGraph) : Prop := ∀ e ∈ g.edges, e.source < g.nodes ∧ e.target < g.nodes

/-- Edges of one name join the same two nodes. -/
def NamesJoin (g : ConflictGraph) : Prop :=
  ∀ e ∈ g.edges, ∀ f ∈ g.edges, e.name = f.name → s(e.source, e.target) = s(f.source, f.target)

/-- A path of edges of the graph from a start to a node, through nodes not below the start, none
of which it comes to twice. -/
structure Path.Leads (p : Path) (g : ConflictGraph) (start node : Nat) : Prop where
  nodes_eq_targets : p.nodes = p.edges.map (·.1.target) ++ [start]
  nodes_eq_sources : p.nodes = node :: p.edges.map (·.1.source)
  nodup : p.nodes.Nodup
  inside : ∀ n ∈ p.nodes, start ≤ n ∧ n < g.nodes
  placed : ∀ x ∈ p.edges, g.edges[x.2]? = some x.1

theorem leads_start (h : start < g.nodes) : (⟨[start], []⟩ : Path).Leads g start start where
  nodes_eq_targets := rfl
  nodes_eq_sources := rfl
  nodup := List.nodup_singleton start
  inside n hn := by
    rw [List.mem_singleton.1 hn]
    exact ⟨Nat.le_refl start, h⟩
  placed x hx := absurd hx List.not_mem_nil

theorem Path.Leads.node_mem (h : p.Leads g start node) : node ∈ p.nodes := by
  rw [h.nodes_eq_sources]
  exact List.mem_cons_self

theorem Path.Leads.length_nodes (h : p.Leads g start node) :
    p.nodes.length = p.edges.length + 1 := by
  rw [h.nodes_eq_sources, List.length_cons, List.length_map]

/-- A path has at most as many nodes as the graph. -/
theorem Path.Leads.length_lt (h : p.Leads g start node) : p.edges.length < g.nodes := by
  have hsubset : p.nodes ⊆ List.range g.nodes := fun n hn => List.mem_range.2 (h.inside n hn).2
  have hlength := (List.subperm_of_subset h.nodup hsubset).length_le
  rwa [h.length_nodes, List.length_range] at hlength

/-- The path goes on along an edge to a new node. -/
theorem Path.Leads.push (h : p.Leads g start node) (hg : g.Inside) (he : (e, i) ∈ g.exits node)
    (habove : start ≤ e.target) (hnew : e.target ∉ p.nodes) :
    (⟨e.target :: p.nodes, (e, i) :: p.edges⟩ : Path).Leads g start e.target := by
  obtain ⟨-, hplace, hsource⟩ := mem_exits.1 he
  refine ⟨?_, ?_, List.nodup_cons.2 ⟨hnew, h.nodup⟩, ?_, ?_⟩
  · rw [List.map_cons, List.cons_append, ← h.nodes_eq_targets]
  · rw [List.map_cons, hsource, ← h.nodes_eq_sources]
  · intro n hn
    rcases List.mem_cons.1 hn with rfl | hn
    · exact ⟨habove, (hg e (List.mem_of_getElem? hplace)).2⟩
    · exact h.inside n hn
  · intro x hx
    rcases List.mem_cons.1 hx with rfl | hx
    · exact hplace
    · exact h.placed x hx

/-- A path with an edge is a path that has gone on along its newest edge. -/
theorem Path.Leads.pop {x : Edge × Nat} {nodes : List Nat} {rest : List (Edge × Nat)}
    (h : (⟨nodes, x :: rest⟩ : Path).Leads g start node) :
    ∃ before : Path, before.Leads g start x.1.source ∧ before.edges = rest ∧
      nodes = x.1.target :: before.nodes ∧ node = x.1.target := by
  have htargets : nodes = x.1.target :: (rest.map (·.1.target) ++ [start]) := h.nodes_eq_targets
  have hsources : nodes = node :: x.1.source :: rest.map (·.1.source) := h.nodes_eq_sources
  have hbefore : rest.map (·.1.target) ++ [start] = x.1.source :: rest.map (·.1.source) := by
    rw [htargets, List.cons.injEq] at hsources
    exact hsources.2
  have hnodup : nodes.Nodup := h.nodup
  refine ⟨⟨rest.map (·.1.target) ++ [start], rest⟩, ⟨rfl, hbefore, ?_, ?_, ?_⟩, rfl, htargets, ?_⟩
  · rw [htargets] at hnodup
    exact (List.nodup_cons.1 hnodup).2
  · intro n hn
    apply h.inside
    rw [htargets]
    exact List.mem_cons_of_mem _ hn
  · intro y hy
    exact h.placed y (List.mem_cons_of_mem x hy)
  · rw [htargets, List.cons.injEq] at hsources
    exact hsources.1.symm

section Search

/-- What the search does with an edge out of the last node. -/
theorem search_succ (exits : Exits) (start depth : Nat) (p : Path) (node : Nat) :
    search exits start (depth + 1) p node =
      (exits node).flatMap fun x =>
        if x.1.target < start then []
        else if p.nodes.contains x.1.target then (close? exits p x.1 x.2).toList
        else search exits start depth ⟨x.1.target :: p.nodes, x :: p.edges⟩ x.1.target := rfl

/-- What the search finds is closed by an edge back to a path. -/
theorem Path.Leads.search_inv (hg : g.Inside) (h : p.Leads g start node)
    (hc : c ∈ search g.exits start depth p node) :
    ∃ (q : Path) (last : Nat) (x : Edge × Nat), q.Leads g start last ∧ x ∈ g.exits last ∧
      x.1.target ∈ q.nodes ∧ close? g.exits q x.1 x.2 = some c := by
  induction depth generalizing p node with
  | zero => exact absurd hc List.not_mem_nil
  | succ depth ih =>
      rw [search_succ, List.mem_flatMap] at hc
      obtain ⟨x, hx, hc⟩ := hc
      split at hc
      · exact absurd hc List.not_mem_nil
      · rename_i habove
        split at hc
        · rename_i hback
          exact ⟨p, node, x, h, hx, List.contains_iff_mem.1 hback, Option.mem_toList.1 hc⟩
        · rename_i hnew
          rw [List.contains_iff_mem] at hnew
          exact ih (h.push hg hx (Nat.le_of_not_lt habove) hnew) hc

/-- The search goes on to every longer path. -/
theorem Path.Leads.search_of_pop {x : Edge × Nat} {nodes : List Nat} {rest : List (Edge × Nat)}
    (h : (⟨nodes, x :: rest⟩ : Path).Leads g start node)
    (hc : c ∈ search g.exits start depth ⟨nodes, x :: rest⟩ node) :
    ∃ before : Path, before.Leads g start x.1.source ∧ before.edges = rest ∧
      c ∈ search g.exits start (depth + 1) before x.1.source := by
  obtain ⟨before, hbefore, rfl, rfl, rfl⟩ := h.pop
  refine ⟨before, hbefore, rfl, ?_⟩
  have hexit : x ∈ g.exits x.1.source :=
    mem_exits.2 ⟨(hbefore.inside _ hbefore.node_mem).2, h.placed x List.mem_cons_self, rfl⟩
  have habove : ¬x.1.target < start := Nat.not_lt.2 (h.inside _ List.mem_cons_self).1
  have hnew : before.nodes.contains x.1.target = false := by
    rw [Bool.eq_false_iff, Ne, List.contains_iff_mem]
    exact (List.nodup_cons.1 h.nodup).1
  rw [search_succ, List.mem_flatMap]
  refine ⟨x, hexit, ?_⟩
  rw [if_neg habove, hnew, if_neg Bool.false_ne_true]
  exact hc

/-- What is found from a path is found from the start, by a search that is deeper by the length
of the path. -/
theorem Path.Leads.search_subset (h : p.Leads g start node)
    (hc : c ∈ search g.exits start depth p node) :
    c ∈ search g.exits start (depth + p.edges.length) ⟨[start], []⟩ start := by
  obtain ⟨nodes, edges⟩ := p
  induction edges generalizing nodes node depth with
  | nil =>
      obtain rfl : nodes = [start] := h.nodes_eq_targets
      obtain rfl : start = node := (List.cons.inj h.nodes_eq_sources).1
      exact hc
  | cons x rest ih =>
      obtain ⟨⟨nodes, edges⟩, hbefore, rfl, hfound⟩ := h.search_of_pop hc
      have hdepth : depth + (x :: edges).length = depth + 1 + edges.length := by
        rw [List.length_cons]
        omega
      rw [hdepth]
      exact ih nodes hbefore hfound

/-- The bound on the depth does not end the search: a path that is longer than the graph has
nodes does not exist. -/
theorem Path.Leads.search_eq (hg : g.Inside) (h : p.Leads g start node) {deeper : Nat}
    (hdepth : g.nodes ≤ depth + p.edges.length) (hdeeper : g.nodes ≤ deeper + p.edges.length) :
    search g.exits start depth p node = search g.exits start deeper p node := by
  induction depth generalizing p node deeper with
  | zero =>
      have := h.length_lt
      omega
  | succ depth ih =>
      have hlength := h.length_lt
      obtain ⟨deeper, rfl⟩ : ∃ n, deeper = n + 1 := ⟨deeper - 1, by omega⟩
      rw [search_succ, search_succ]
      apply List.flatMap_congr
      intro x hx
      split
      · rfl
      · rename_i habove
        split
        · rfl
        · rename_i hnew
          rw [List.contains_iff_mem] at hnew
          apply ih (h.push hg hx (Nat.le_of_not_lt habove) hnew)
          · rw [List.length_cons]
            omega
          · rw [List.length_cons]
            omega

/-- The candidates are what paths of the graph close. -/
theorem mem_candidates_iff (hg : g.Inside) :
    c ∈ g.candidates ↔ ∃ (start : Nat) (p : Path) (node : Nat) (x : Edge × Nat),
      p.Leads g start node ∧ x ∈ g.exits node ∧ x.1.target ∈ p.nodes ∧
        close? g.exits p x.1 x.2 = some c := by
  rw [candidates_eq, List.mem_flatMap]
  constructor
  · rintro ⟨start, hstart, hc⟩
    obtain ⟨p, node, x, h⟩ := (leads_start (List.mem_range.1 hstart)).search_inv hg hc
    exact ⟨start, p, node, x, h⟩
  · rintro ⟨start, p, node, x, h, hx, hback, hclose⟩
    have hlength := h.length_lt
    refine ⟨start, List.mem_range.2 ((h.inside _ hback).1.trans_lt (h.inside _ hback).2), ?_⟩
    obtain ⟨depth, hdepth⟩ : ∃ n, g.nodes = n + 1 + p.edges.length :=
      ⟨g.nodes - p.edges.length - 1, by omega⟩
    rw [hdepth]
    apply h.search_subset
    rw [search_succ, List.mem_flatMap]
    refine ⟨x, hx, ?_⟩
    rw [if_neg (Nat.not_lt.2 (h.inside _ hback).1), if_pos (List.contains_iff_mem.2 hback), hclose]
    exact List.mem_singleton_self c

end Search

end ConflictGraph

end LiveIsolation
