import LiveIsolation.Proofs.ConflictGraph.Dangers
import Mathlib.Data.List.NodupEquivFin

/-!
# Graphs that grow

A workload that gains templates gains nodes, and edges at the new nodes. The old edges move to
other places of the graph, but between old nodes no edge comes and none goes (`Growth`). A path of
the old graph is therefore a path of the new one, and its loops are kept or dropped as before
(`Growth.close?_moved`): a chord joins two nodes of the loop, and those are old. So the report of
the new graph has every statement of the old one (`Growth.refs_subset`). What names the new edges
have makes no difference.
-/

namespace LiveIsolation

open Multigraph

/-- The cycle with its edges at other places. -/
def Cycle.moved (c : Cycle) (place : Nat → Nat) : Cycle := ⟨c.nodes, c.edges.map place⟩

namespace ConflictGraph

variable {g h : ConflictGraph} {place : Nat → Nat} {start node : Nat} {p : Path}
  {x : Edge × Nat} {c : Cycle} {q : StatementRef} {d : Discipline}

/-- One graph has the nodes and edges of another one, the edges at other places, and no more
edges between its nodes. -/
structure Growth (g h : ConflictGraph) (place : Nat → Nat) : Prop where
  nodes_le : g.nodes ≤ h.nodes
  placed : ∀ i e, g.edges[i]? = some e → h.edges[place i]? = some e
  old : ∀ e ∈ h.edges, e.source < g.nodes → e.target < g.nodes → e ∈ g.edges

section Paths

/-- The edge at its other place. -/
def movedTo (place : Nat → Nat) (x : Edge × Nat) : Edge × Nat := (x.1, place x.2)

/-- The path with its edges at other places. -/
def Path.moved (p : Path) (place : Nat → Nat) : Path := ⟨p.nodes, p.edges.map (movedTo place)⟩

theorem Path.loop_moved (p : Path) (x : Edge × Nat) :
    (p.moved place).loop (movedTo place x) = (p.loop x).map (movedTo place) := by
  rw [loop, loop, List.map_reverse, List.map_cons, List.map_take]
  rfl

theorem Path.walk_moved (p : Path) (x : Edge × Nat) :
    (p.moved place).walk (movedTo place x) = p.walk x := by
  rw [walk, loop_moved, List.map_map]
  rfl

theorem Path.cycle_moved (p : Path) (x : Edge × Nat) :
    (p.moved place).cycle (movedTo place x) = (p.cycle x).moved place := by
  rw [cycle, walk_moved, loop_moved, List.map_map, cycle, Cycle.moved, List.map_map]
  rfl

/-- Rings of which the same members satisfy a test are tested alike. -/
theorem anyApartOnRing_congr {α : Type} {r s : α → α → Bool} {xs : List α}
    (hrs : ∀ a ∈ xs, ∀ b ∈ xs, r a b = s a b) : anyApartOnRing r xs = anyApartOnRing s xs := by
  rw [Bool.eq_iff_iff, anyApartOnRing_iff, anyApartOnRing_iff]
  constructor
  · rintro ⟨i, j, a, b, hij, hends, ha, hb, hr⟩
    rw [hrs a (List.mem_of_getElem? ha) b (List.mem_of_getElem? hb)] at hr
    exact ⟨i, j, a, b, hij, hends, ha, hb, hr⟩
  · rintro ⟨i, j, a, b, hij, hends, ha, hb, hs⟩
    rw [← hrs a (List.mem_of_getElem? ha) b (List.mem_of_getElem? hb)] at hs
    exact ⟨i, j, a, b, hij, hends, ha, hb, hs⟩

end Paths

namespace Growth

theorem mem_edges_iff (hgrow : Growth g h place) {e : Edge} (hsource : e.source < g.nodes)
    (htarget : e.target < g.nodes) : e ∈ g.edges ↔ e ∈ h.edges := by
  constructor
  · intro he
    obtain ⟨i, hi⟩ := List.mem_iff_getElem?.1 he
    exact List.mem_of_getElem? (hgrow.placed i e hi)
  · exact fun he => hgrow.old e he hsource htarget

/-- Old nodes are joined by the edges that joined them before. -/
theorem joinedBeside_eq (hgrow : Growth g h place) (names : List String) {a b : Nat}
    (ha : a < g.nodes) (hb : b < g.nodes) :
    joinedBeside g.exits names a b = joinedBeside h.exits names a b := by
  rw [Bool.eq_iff_iff, joinedBeside_iff ha hb,
    joinedBeside_iff (ha.trans_le hgrow.nodes_le) (hb.trans_le hgrow.nodes_le)]
  apply exists_congr
  intro e
  rw [mem_between, mem_between]
  apply and_congr_left'
  apply and_congr_left
  intro hjoins
  rcases Sym2.eq_iff.1 (Edge.joins_iff.1 hjoins) with ⟨hsource, htarget⟩ | ⟨hsource, htarget⟩
  · exact hgrow.mem_edges_iff (hsource ▸ ha) (htarget ▸ hb)
  · exact hgrow.mem_edges_iff (hsource ▸ hb) (htarget ▸ ha)

theorem leads_moved (hgrow : Growth g h place) (hp : p.Leads g start node) :
    (p.moved place).Leads h start node where
  nodes_eq_targets := by
    rw [Path.moved, List.map_map]
    exact hp.nodes_eq_targets
  nodes_eq_sources := by
    rw [Path.moved, List.map_map]
    exact hp.nodes_eq_sources
  nodup := hp.nodup
  inside n hn := ⟨(hp.inside n hn).1, (hp.inside n hn).2.trans_le hgrow.nodes_le⟩
  placed y hy := by
    obtain ⟨x, hx, rfl⟩ := List.mem_map.1 hy
    exact hgrow.placed x.2 x.1 (hp.placed x hx)

theorem exit_moved (hgrow : Growth g h place) (hx : x ∈ g.exits node) :
    movedTo place x ∈ h.exits node := by
  obtain ⟨hnode, hplace, hsource⟩ := mem_exits.1 hx
  exact mem_exits.2 ⟨hnode.trans_le hgrow.nodes_le, hgrow.placed x.2 x.1 hplace, hsource⟩

/-- A loop of the old graph is kept in the new graph if and only if it was kept before. -/
theorem close?_moved (hgrow : Growth g h place) (hp : p.Leads g start node)
    (hx : x ∈ g.exits node) :
    close? h.exits (p.moved place) (movedTo place x).1 (movedTo place x).2 =
      (close? g.exits p x.1 x.2).map (·.moved place) := by
  have hinside : ∀ n ∈ (p.walk x).map Edge.source, n < g.nodes := by
    intro n hn
    rw [hp.sources_walk hx, List.mem_reverse] at hn
    exact (hp.inside n (List.mem_of_mem_take hn)).2
  have hchords : ∀ names : List String,
      anyApartOnRing (joinedBeside h.exits names) ((p.walk x).map Edge.source) =
        anyApartOnRing (joinedBeside g.exits names) ((p.walk x).map Edge.source) := by
    intro names
    apply anyApartOnRing_congr
    intro a ha b hb
    exact (hgrow.joinedBeside_eq names (hinside a ha) (hinside b hb)).symm
  rw [(hgrow.leads_moved hp).close?_eq (hgrow.exit_moved hx), hp.close?_eq hx, Path.walk_moved,
    Path.cycle_moved, hchords, apply_ite (Option.map _), apply_ite (Option.map _)]
  simp only [Path.moved, movedTo, ← List.map_take, List.any_map, List.map_map, Function.comp_def,
    Option.map_none, Option.map_some]

/-- No candidate is lost. -/
theorem moved_mem_candidates (hgrow : Growth g h place) (hg : g.Inside) (hh : h.Inside)
    (hc : c ∈ g.candidates) : c.moved place ∈ h.candidates := by
  obtain ⟨start, p, node, x, hp, hx, hback, hclose⟩ := (mem_candidates_iff hg).1 hc
  refine (mem_candidates_iff hh).2 ⟨start, p.moved place, node, movedTo place x,
    hgrow.leads_moved hp, hgrow.exit_moved hx, hback, ?_⟩
  rw [hgrow.close?_moved hp hx, hclose, Option.map_some]

theorem edgesAt_moved (hgrow : Growth g h place) {places : List Nat} {walk : List Edge}
    (hwalk : g.EdgesAt places walk) : h.EdgesAt (places.map place) walk := by
  rw [EdgesAt, ← show places.map (g.edges[·]?) = walk.map some from hwalk, List.map_map]
  apply List.map_congr_left
  intro i hi
  have hsome : g.edges[i]? ∈ walk.map some := by
    rw [← show places.map (g.edges[·]?) = walk.map some from hwalk]
    exact List.mem_map_of_mem hi
  obtain ⟨e, -, he⟩ := List.mem_map.1 hsome
  rw [← he]
  exact hgrow.placed i e he.symm

/-- The report of the new graph has every statement that the old one had. -/
theorem refs_subset (hgrow : Growth g h place) (hg : g.Inside) (hh : h.Inside)
    (hq : q ∈ g.dangers.refs d) : q ∈ h.dangers.refs d := by
  obtain ⟨c, hc, hq⟩ := mem_refs_dangers.1 hq
  have hcandidate := firstOfEach_subset hc
  obtain ⟨walk, hwalk⟩ := exists_edgesAt_of_mem_candidates hg hcandidate
  obtain ⟨found, hfound, hcanonical⟩ :=
    exists_mem_firstOfEach (hgrow.moved_mem_candidates hg hh hcandidate)
  obtain ⟨foundWalk, hfoundWalk⟩ := exists_edgesAt_of_mem_candidates hh (firstOfEach_subset hfound)
  have hrotated : foundWalk ~r walk := hfoundWalk.isRotated (hgrow.edgesAt_moved hwalk)
    (Cycle.isRotated_of_canonical_eq hcanonical)
  rw [hwalk.mem_refs (List.IsRotated.refl walk)] at hq
  exact mem_refs_dangers.2 ⟨found, hfound, (hfoundWalk.mem_refs hrotated).2 hq⟩

end Growth

section Build

variable {ts us : List Transaction}

theorem orderedPairs_sublist {α : Type} (xs ys : List α) :
    (orderedPairs xs).Sublist (orderedPairs (xs ++ ys)) := by
  induction xs with
  | nil => exact List.nil_sublist _
  | cons x rest ih =>
      rw [List.cons_append, orderedPairs, orderedPairs]
      exact ((List.sublist_append_left rest ys).map _).append ih

theorem Numbered.of_append (hn : Numbered (ts ++ us)) : Numbered ts := by
  intro k t ht
  apply hn k t
  rw [List.getElem?_append_left (List.getElem?_eq_some_iff.1 ht).1, ht]

/-- The conflicts between old templates are those that were there before. -/
theorem Conflict.of_append {p q : StatementRef} {a b : Statement}
    (hconflict : Conflict (ts ++ us) p q a b) (hp : p.template < ts.length)
    (hq : q.template < ts.length) : Conflict ts p q a b := by
  obtain ⟨hapart, ⟨t, ht⟩, ⟨u, hu⟩, hrelation, hwrites⟩ := hconflict
  refine ⟨hapart, ⟨t, ?_, ht.statement, ht.exposes⟩, ⟨u, ?_, hu.statement, hu.exposes⟩, hrelation,
    hwrites⟩
  · rw [← List.getElem?_append_left hp]
    exact ht.template
  · rw [← List.getElem?_append_left hq]
    exact hu.template

theorem nameBetween_append {p q : StatementRef} (hp : p.template < ts.length)
    (hq : q.template < ts.length) : nameBetween (ts ++ us) p q = nameBetween ts p q := by
  rw [nameBetween, nameBetween, templateName, templateName, templateName, templateName,
    List.getElem?_append_left hp, List.getElem?_append_left hq]

/-- Templates that are registered after others let the graph grow. -/
theorem growth_build (hn : Numbered (ts ++ us)) :
    ∃ place, Growth (build ts) (build (ts ++ us)) place := by
  have hsublist : (build ts).edges.Sublist (build (ts ++ us)).edges :=
    (orderedPairs_sublist ts us).flatMap _
  obtain ⟨place, hplace⟩ := List.sublist_iff_exists_orderEmbedding_getElem?_eq.1 hsublist
  refine ⟨place, ⟨?_, ?_, ?_⟩⟩
  · rw [build_nodes, build_nodes, List.length_append]
    exact Nat.le_add_right _ _
  · intro i e he
    rw [← hplace, he]
  · intro e he hsource htarget
    obtain ⟨a, b, hconflict, hkind, hname⟩ := (mem_build_edges hn).1 he
    rw [nameBetween_append hsource htarget] at hname
    exact (mem_build_edges hn.of_append).2
      ⟨a, b, hconflict.of_append hsource htarget, hkind, hname⟩

end Build

end ConflictGraph

end LiveIsolation
