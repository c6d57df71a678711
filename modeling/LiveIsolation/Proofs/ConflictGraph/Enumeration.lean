import LiveIsolation.Proofs.ConflictGraph.Loop

/-!
# All induced cycles, each once

Every induced cycle is the loop of a path from its least node, so the search comes to it. Cycles
that differ by rotation have one canonical form, because no edge stands in a cycle twice. The
cycles of a graph are therefore its induced cycles, each in one of its rotations.
-/

namespace LiveIsolation

/-- Of the rotations of a list without duplicates, each begins with another member. -/
theorem eq_of_isRotated_of_head? {α : Type} {xs ys : List α} (hnodup : xs.Nodup)
    (h : xs ~r ys) (hhead : xs.head? = ys.head?) : xs = ys := by
  obtain ⟨n, rfl⟩ := h
  cases hxs : xs with
  | nil => rw [List.rotate_nil]
  | cons a rest =>
      rw [← hxs]
      have hlength : 0 < xs.length := by
        rw [hxs, List.length_cons]
        exact Nat.succ_pos _
      have hlt : n % xs.length < xs.length := Nat.mod_lt _ hlength
      rw [← List.rotate_mod, List.head?_rotate hlt, List.head?_eq_getElem?,
        List.getElem?_eq_getElem hlength, List.getElem?_eq_getElem hlt, Option.some.injEq,
        hnodup.getElem_inj_iff] at hhead
      rw [← List.rotate_mod, ← hhead, List.rotate_zero]

namespace Cycle

variable {c d : Cycle}

theorem leastPlace_le (xs : List Nat) : leastPlace xs ≤ xs.length := by
  rw [leastPlace]
  split
  · exact List.idxOf_le_length
  · exact Nat.zero_le _

theorem canonical_isRotated (c : Cycle) : c.canonical ~r c.edges := by
  rw [canonical, turn, ← List.rotate_eq_drop_append_take (leastPlace_le c.edges)]
  exact List.IsRotated.forall _ _

/-- The canonical form begins with the edge that comes first in the graph. -/
theorem head?_canonical (c : Cycle) : c.canonical.head? = c.edges.min? := by
  cases hmin : c.edges.min? with
  | none =>
      rw [List.min?_eq_none_iff] at hmin
      rw [canonical, hmin]
      rfl
  | some least =>
      have hmem : least ∈ c.edges := (List.min?_eq_some_iff.1 hmin).1
      have hplace : leastPlace c.edges = c.edges.idxOf least := by rw [leastPlace, hmin]
      rw [canonical, turn, ← List.rotate_eq_drop_append_take (leastPlace_le c.edges), hplace,
        List.head?_rotate (List.idxOf_lt_length_of_mem hmem), List.getElem?_idxOf hmem]

/-- Cycles of one canonical form differ by rotation only. -/
theorem isRotated_of_canonical_eq (h : c.canonical = d.canonical) : c.edges ~r d.edges :=
  (h ▸ c.canonical_isRotated).symm.trans d.canonical_isRotated

/-- Cycles without a repeated edge have one canonical form if and only if they differ by rotation
only. -/
theorem canonical_eq_iff (hnodup : c.edges.Nodup) :
    c.canonical = d.canonical ↔ c.edges ~r d.edges := by
  constructor
  · exact isRotated_of_canonical_eq
  · intro h
    have hmin : c.edges.min? = d.edges.min? := by
      apply Option.ext
      intro least
      rw [List.min?_eq_some_iff, List.min?_eq_some_iff, h.mem_iff]
      apply and_congr_right'
      apply forall_congr'
      intro b
      rw [h.mem_iff]
    apply eq_of_isRotated_of_head?
    · exact (canonical_isRotated c).nodup_iff.2 hnodup
    · exact (c.canonical_isRotated.trans h).trans d.canonical_isRotated.symm
    · rw [head?_canonical, head?_canonical, hmin]

end Cycle

namespace ConflictGraph

variable {g : ConflictGraph} {c : Cycle} {walk : List Edge} {places : List Nat}

/-- The edges of a walk with their places, side by side. -/
theorem EdgesAt.exists_placed (h : g.EdgesAt places walk) :
    ∃ ring : List (Edge × Nat), ring.map Prod.fst = walk ∧ ring.map Prod.snd = places ∧
      ∀ y ∈ ring, g.edges[y.2]? = some y.1 := by
  induction places generalizing walk with
  | nil =>
      obtain rfl : walk = [] := List.map_eq_nil_iff.1 h.symm
      exact ⟨[], rfl, rfl, fun y hy => absurd hy List.not_mem_nil⟩
  | cons i rest ih =>
      cases walk with
      | nil => cases h
      | cons e walk =>
          obtain ⟨hi, hrest⟩ := List.cons.inj h
          obtain ⟨ring, hwalk, hplaces, hplaced⟩ := ih hrest
          refine ⟨(e, i) :: ring, ?_, ?_, ?_⟩
          · rw [List.map_cons, hwalk]
          · rw [List.map_cons, hplaces]
          · intro y hy
            rcases List.mem_cons.1 hy with rfl | hy
            · exact hi
            · exact hplaced y hy

/-- Edges that differ stand at places that differ. -/
theorem EdgesAt.nodup (h : g.EdgesAt places walk) (hwalk : walk.Nodup) : places.Nodup := by
  apply List.Nodup.of_map (g.edges[·]?)
  rw [show places.map (g.edges[·]?) = walk.map some from h]
  exact hwalk.map (Option.some_injective _)

theorem edgesIn_eq (h : g.EdgesAt c.edges walk) : c.edgesIn g = walk := by
  have hmap : c.edgesIn g = (c.edges.map (g.edges[·]?)).filterMap id := by
    rw [List.filterMap_map]
    rfl
  rw [hmap, show c.edges.map (g.edges[·]?) = walk.map some from h, List.filterMap_map]
  exact List.filterMap_some

theorem mem_of_mem_edgesIn {e : Edge} (he : e ∈ c.edgesIn g) : e ∈ g.edges := by
  obtain ⟨i, -, hi⟩ := List.mem_filterMap.1 he
  exact List.mem_of_getElem? hi

/-- A closed ring of edges that begins at its least node is the loop of a path. -/
theorem exists_loop_of_least {ring : List (Edge × Nat)} (hg : g.Inside)
    (hplaced : ∀ y ∈ ring, g.edges[y.2]? = some y.1)
    (h : g.arcs.InducedCycle (ring.map Prod.fst)) {first : Edge × Nat} {rest : List (Edge × Nat)}
    (hring : ring = first :: rest) (hleast : ∀ y ∈ ring, first.1.source ≤ y.1.source) :
    ∃ (p : Path) (node : Nat) (x : Edge × Nat), p.Leads g first.1.source node ∧
      x ∈ g.exits node ∧ x.1.target ∈ p.nodes ∧ p.loop x = ring := by
  obtain ⟨before, last, hlast⟩ : ∃ before last, ring = before ++ [last] := by
    rcases List.eq_nil_or_concat ring with hnil | ⟨before, last, hconcat⟩
    · rw [hnil] at hring
      cases hring
    · exact ⟨before, last, by rw [hconcat, List.concat_eq_append]⟩
  have hclosed : (ring.map Prod.fst).map Edge.target =
      ((ring.map Prod.fst).map Edge.source).rotate 1 := h.closed
  -- Behind the first node the ring comes to where its edges lead.
  obtain ⟨htargets, hback⟩ : before.map (·.1.target) = rest.map (·.1.source) ∧
      last.1.target = first.1.source := by
    rw [List.map_map, List.map_map] at hclosed
    conv_rhs at hclosed => rw [hring]
    rw [hlast, List.map_append, List.map_singleton, List.map_cons, List.rotate_cons_succ,
      List.rotate_zero] at hclosed
    obtain ⟨htargets, hback⟩ := List.append_inj' hclosed rfl
    exact ⟨htargets, (List.cons.inj hback).1⟩
  have hsources : ring.map (·.1.source) = first.1.source :: before.map (·.1.target) := by
    rw [hring, List.map_cons, htargets]
  have hnodes : (ring.map (·.1.source)).Nodup := by
    have hnodup := h.nodup_nodes
    rwa [List.map_map] at hnodup
  have hreverse : (ring.map (·.1.source)).reverse =
      before.reverse.map (·.1.target) ++ [first.1.source] := by
    rw [hsources, List.reverse_cons, List.map_reverse]
  refine ⟨⟨(ring.map (·.1.source)).reverse, before.reverse⟩, last.1.source, last,
    ⟨hreverse, ?_, List.nodup_reverse.2 hnodes, ?_, ?_⟩, ?_, ?_, ?_⟩
  · rw [hlast, List.map_append, List.map_singleton, List.reverse_append, List.reverse_singleton,
      List.singleton_append, List.map_reverse]
  · intro n hn
    obtain ⟨y, hy, rfl⟩ := List.mem_map.1 (List.mem_reverse.1 hn)
    exact ⟨hleast y hy, (hg y.1 (List.mem_of_getElem? (hplaced y hy))).1⟩
  · intro y hy
    apply hplaced
    rw [hlast]
    exact List.mem_append_left _ (List.mem_reverse.1 hy)
  · have hmem : last ∈ ring := by
      rw [hlast]
      exact List.mem_concat_self
    exact mem_exits.2 ⟨(hg last.1 (List.mem_of_getElem? (hplaced last hmem))).1,
      hplaced last hmem, rfl⟩
  · rw [hback, hreverse]
    exact List.mem_concat_self
  · have hnew : first.1.source ∉ before.reverse.map (·.1.target) := by
      rw [hsources, List.nodup_cons] at hnodes
      rw [List.map_reverse, List.mem_reverse]
      exact hnodes.1
    have hall : before.reverse.take ((ring.map (·.1.source)).reverse.idxOf last.1.target) =
        before.reverse := by
      rw [hback, hreverse, List.idxOf_append_of_notMem hnew, List.idxOf_cons_self, Nat.add_zero,
        List.length_map, List.take_length]
    rw [Path.loop, hall, List.reverse_cons, List.reverse_reverse, hlast]

/-- The search comes to every induced cycle. -/
theorem exists_candidate (hg : g.Inside) (hn : g.NamesJoin) (hplaces : g.EdgesAt places walk)
    (h : g.arcs.InducedCycle walk) : ∃ c ∈ g.candidates, c.edges ~r places := by
  obtain ⟨ring, rfl, rfl, hplaced⟩ := hplaces.exists_placed
  have hsome : ring.map (·.1.source) ≠ [] := by
    rw [Ne, List.map_eq_nil_iff]
    rintro rfl
    exact h.ne_nil rfl
  obtain ⟨least, hleast⟩ := Option.ne_none_iff_exists'.1 (mt List.min?_eq_none_iff.1 hsome)
  obtain ⟨hmem, hleast⟩ := List.min?_eq_some_iff.1 hleast
  obtain ⟨first, hfirst, rfl⟩ := List.mem_map.1 hmem
  obtain ⟨before, after, rfl⟩ := List.append_of_mem hfirst
  -- The ring is turned so that it begins at its least node.
  have hturn := List.rotate_append_length_eq before (first :: after)
  have hmem' : ∀ y ∈ (before ++ first :: after).rotate before.length,
      y ∈ before ++ first :: after := fun y hy => List.mem_rotate.1 hy
  have hturned : g.arcs.InducedCycle
      (((before ++ first :: after).rotate before.length).map Prod.fst) := by
    rw [List.map_rotate]
    exact h.rotate _
  obtain ⟨p, node, x, hleads, hx, hback, hloop⟩ := exists_loop_of_least hg
    (fun y hy => hplaced y (hmem' y hy)) hturned (by rw [hturn, List.cons_append])
    (fun y hy => hleast _ (List.mem_map.2 ⟨y, hmem' y hy, rfl⟩))
  have hinduced : g.arcs.InducedCycle (p.walk x) := by
    rw [Path.walk, hloop, List.map_rotate]
    exact h.rotate _
  refine ⟨p.cycle x, ?_, ?_⟩
  · rw [mem_candidates_iff hg]
    exact ⟨_, p, node, x, hleads, hx, hback,
      (hleads.close?_eq_some_iff hg hn hx hback).2 ⟨hinduced, rfl⟩⟩
  · rw [Path.cycle, hloop, List.map_rotate]
    exact List.IsRotated.forall _ _

/-- What the search finds is made of edges of the graph. -/
theorem exists_edgesAt_of_mem_candidates (hg : g.Inside) (hc : c ∈ g.candidates) :
    ∃ walk, g.EdgesAt c.edges walk := by
  obtain ⟨start, p, node, x, h, hx, -, hclose⟩ := (mem_candidates_iff hg).1 hc
  obtain ⟨rfl, -⟩ := h.closing_ne hx hclose
  exact ⟨p.walk x, h.edgesAt_loop hx⟩

/-- The search finds induced cycles only. -/
theorem induced_of_mem_candidates (hg : g.Inside) (hn : g.NamesJoin) (hc : c ∈ g.candidates) :
    ∃ walk, g.EdgesAt c.edges walk ∧ g.arcs.InducedCycle walk ∧
      c.nodes = walk.map Edge.source := by
  obtain ⟨start, p, node, x, h, hx, hback, hclose⟩ := (mem_candidates_iff hg).1 hc
  obtain ⟨hinduced, rfl⟩ := (h.close?_eq_some_iff hg hn hx hback).1 hclose
  exact ⟨p.walk x, h.edgesAt_loop hx, hinduced, rfl⟩

theorem nodup_of_mem_candidates (hg : g.Inside) (hn : g.NamesJoin) (hc : c ∈ g.candidates) :
    c.edges.Nodup := by
  obtain ⟨walk, hplaces, hinduced, -⟩ := induced_of_mem_candidates hg hn hc
  exact hplaces.nodup hinduced.nodup_nodes.of_map

/-- Each cycle of a graph stands for an induced cycle. -/
theorem induced_of_mem_cycles (hg : g.Inside) (hn : g.NamesJoin) (hc : c ∈ g.cycles) :
    ∃ walk, g.EdgesAt c.edges walk ∧ g.arcs.InducedCycle walk ∧ c.nodes = walk.map Edge.source :=
  induced_of_mem_candidates hg hn (firstOfEach_subset hc)

/-- Each induced cycle is one of the cycles of the graph, up to rotation. -/
theorem exists_cycle (hg : g.Inside) (hn : g.NamesJoin) (hplaces : g.EdgesAt places walk)
    (h : g.arcs.InducedCycle walk) : ∃ c ∈ g.cycles, c.edges ~r places := by
  obtain ⟨c, hc, hrotated⟩ := exists_candidate hg hn hplaces h
  obtain ⟨d, hd, hcanonical⟩ := exists_mem_firstOfEach hc
  exact ⟨d, hd, (Cycle.isRotated_of_canonical_eq hcanonical).trans hrotated⟩

/-- No two cycles of a graph differ by rotation only. -/
theorem pairwise_not_isRotated (hg : g.Inside) (hn : g.NamesJoin) :
    g.cycles.Pairwise fun c d => ¬c.edges ~r d.edges := by
  refine (firstOfEach_pairwise g.candidates).imp_of_mem ?_
  intro c d hc _ hcanonical hrotated
  have hnodup := nodup_of_mem_candidates hg hn (firstOfEach_subset hc)
  exact hcanonical ((Cycle.canonical_eq_iff hnodup).2 hrotated)

/-- The search never leaves the graph. -/
theorem Inside.closed (hg : g.Inside) : g.closed = true := by
  rw [ConflictGraph.closed, List.all_eq_true]
  intro e he
  apply decide_eq_true
  exact fun _ => (hg e he).2

/-- The enumeration of cycles is exact: where edges stay in the graph and names tell apart which
nodes they join, no search leaves the graph or is cut short, every cycle that is found is an
induced cycle of the graph with its nodes, every induced cycle is found, and none is found in two
rotations. -/
theorem cycles_enumerate_induced (g : ConflictGraph) (hg : g.Inside) (hn : g.NamesJoin) :
    g.closed = true ∧
    (∀ start < g.nodes, ∀ depth, g.nodes ≤ depth →
      search g.exits start depth ⟨[start], []⟩ start =
        search g.exits start g.nodes ⟨[start], []⟩ start) ∧
    (∀ c ∈ g.cycles, ∃ walk, g.EdgesAt c.edges walk ∧ g.arcs.InducedCycle walk ∧
      c.nodes = walk.map Edge.source) ∧
    (∀ places walk, g.EdgesAt places walk → g.arcs.InducedCycle walk →
      ∃ c ∈ g.cycles, c.edges ~r places) ∧
    g.cycles.Pairwise fun c d => ¬c.edges ~r d.edges := by
  refine ⟨hg.closed, ?_, ?_, ?_, pairwise_not_isRotated hg hn⟩
  · intro start hstart depth hdepth
    exact (leads_start hstart).search_eq hg hdepth (Nat.le_refl _)
  · intro c hc
    exact induced_of_mem_cycles hg hn hc
  · intro places walk hplaces h
    exact exists_cycle hg hn hplaces h

instance (g : ConflictGraph) : Decidable g.Inside :=
  inferInstanceAs (Decidable (∀ e ∈ g.edges, e.source < g.nodes ∧ e.target < g.nodes))

instance (g : ConflictGraph) : Decidable g.NamesJoin :=
  inferInstanceAs (Decidable (∀ e ∈ g.edges, ∀ f ∈ g.edges, e.name = f.name →
    s(e.source, e.target) = s(f.source, f.target)))

/-- A ring of three conflicts, two of them in both directions, and an edge that leads into it. -/
def spoked : ConflictGraph where
  nodes := 4
  edges :=
    [⟨0, 2, .readWrite, "lead", 0, 0⟩, ⟨1, 2, .readWrite, "a", 0, 0⟩,
      ⟨2, 3, .readWrite, "b", 0, 0⟩, ⟨3, 1, .writeRead, "c", 0, 0⟩,
      ⟨2, 1, .writeRead, "a", 0, 0⟩, ⟨3, 2, .writeRead, "b", 0, 0⟩]

/-- The search enters the ring from node 0, and finds it. -/
theorem spoked_ring_found :
    spoked.Inside ∧ spoked.NamesJoin ∧ ∃ c ∈ spoked.cycles, c.edges ~r [2, 3, 1] := by
  have hg : spoked.Inside := by decide
  have hn : spoked.NamesJoin := by decide
  obtain ⟨-, -, -, hcomplete, -⟩ := cycles_enumerate_induced spoked hg hn
  refine ⟨hg, hn, hcomplete [2, 3, 1] [⟨2, 3, .readWrite, "b", 0, 0⟩,
    ⟨3, 1, .writeRead, "c", 0, 0⟩, ⟨1, 2, .readWrite, "a", 0, 0⟩] rfl ⟨?_, ?_, rfl, ?_, ?_, ?_⟩⟩
  · exact List.cons_ne_nil _ _
  · change ∀ e ∈ _, e ∈ spoked.edges
    decide
  · decide
  · decide
  · intro _
    rw [chordless_arcs_iff]
    decide

end ConflictGraph

end LiveIsolation
