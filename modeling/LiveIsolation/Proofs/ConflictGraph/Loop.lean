import LiveIsolation.Proofs.ConflictGraph.Search

/-!
# Loops

An edge back to a path closes a loop (`Path.loop`), which is a closed walk without a repeated
node. The search keeps the loop if it uses no name twice and has no chord, and its two tests are
exactly that wherever names tell the joined nodes apart (`Path.Leads.close?_eq_some_iff`).
-/

namespace LiveIsolation

namespace ConflictGraph

variable {g : ConflictGraph} {p : Path} {start node : Nat} {x : Edge × Nat} {c : Cycle}

/-- The edges stand at these places of the graph. -/
def EdgesAt (g : ConflictGraph) (places : List Nat) (walk : List Edge) : Prop :=
  places.map (g.edges[·]?) = walk.map some

section Loop

/-- The walk from a node of the path on, and back to it along one more edge. -/
def Path.loop (p : Path) (x : Edge × Nat) : List (Edge × Nat) :=
  (x :: p.edges.take (p.nodes.idxOf x.1.target)).reverse

/-- The edges of a loop, one after another. -/
def Path.walk (p : Path) (x : Edge × Nat) : List Edge := (p.loop x).map Prod.fst

/-- The cycle that a loop stands for. -/
def Path.cycle (p : Path) (x : Edge × Nat) : Cycle :=
  ⟨(p.walk x).map Edge.source, (p.loop x).map Prod.snd⟩

theorem Path.mem_loop {y : Edge × Nat} :
    y ∈ p.loop x ↔ y = x ∨ y ∈ p.edges.take (p.nodes.idxOf x.1.target) := by
  rw [loop, List.mem_reverse, List.mem_cons]

theorem Path.Leads.idxOf_le (h : p.Leads g start node) (hback : x.1.target ∈ p.nodes) :
    p.nodes.idxOf x.1.target ≤ p.edges.length := by
  have hlt := List.idxOf_lt_length_of_mem hback
  rw [h.length_nodes] at hlt
  exact Nat.le_of_lt_succ hlt

/-- A loop comes to the nodes of the path from the one that it leads back to. -/
theorem Path.Leads.sources_walk (h : p.Leads g start node) (hx : x ∈ g.exits node) :
    (p.walk x).map Edge.source = (p.nodes.take (p.nodes.idxOf x.1.target + 1)).reverse := by
  obtain ⟨-, -, hsource⟩ := mem_exits.1 hx
  rw [walk, loop, List.map_map, List.map_reverse, List.map_cons, List.map_take]
  congr 1
  rw [h.nodes_eq_sources, List.take_succ_cons, ← hsource]
  rfl

theorem Path.Leads.targets_walk (h : p.Leads g start node) (hback : x.1.target ∈ p.nodes) :
    (p.walk x).map Edge.target =
      (x.1.target :: p.nodes.take (p.nodes.idxOf x.1.target)).reverse := by
  have hle : p.nodes.idxOf x.1.target ≤ (p.edges.map (·.1.target)).length := by
    rw [List.length_map]
    exact h.idxOf_le hback
  have htake : p.nodes.take (p.nodes.idxOf x.1.target) =
      (p.edges.map (·.1.target)).take (p.nodes.idxOf x.1.target) := by
    conv_lhs => rw [h.nodes_eq_targets, ← h.nodes_eq_targets]
    rw [← List.take_append_of_le_length hle, ← h.nodes_eq_targets]
  rw [htake, walk, loop, List.map_map, List.map_reverse, List.map_cons, List.map_take]
  rfl

/-- A loop is closed. -/
theorem Path.Leads.closed_walk (h : p.Leads g start node) (hx : x ∈ g.exits node)
    (hback : x.1.target ∈ p.nodes) : g.arcs.Closed (p.walk x) := by
  have hlt := List.idxOf_lt_length_of_mem hback
  have htake : p.nodes.take (p.nodes.idxOf x.1.target + 1) =
      p.nodes.take (p.nodes.idxOf x.1.target) ++ [x.1.target] := by
    rw [← List.take_concat_get' _ _ hlt, List.getElem_idxOf hlt]
  change (p.walk x).map Edge.target = ((p.walk x).map Edge.source).rotate 1
  rw [h.targets_walk hback, h.sources_walk hx, htake, List.reverse_append, List.reverse_singleton,
    List.singleton_append, List.rotate_cons_succ, List.rotate_zero, List.reverse_cons]

theorem Path.Leads.nodup_walk (h : p.Leads g start node) (hx : x ∈ g.exits node) :
    ((p.walk x).map Edge.source).Nodup := by
  rw [h.sources_walk hx, List.nodup_reverse]
  exact h.nodup.sublist (List.take_sublist _ _)

theorem Path.Leads.placed_loop (h : p.Leads g start node) (hx : x ∈ g.exits node) :
    ∀ y ∈ p.loop x, g.edges[y.2]? = some y.1 := by
  intro y hy
  rcases Path.mem_loop.1 hy with rfl | hy
  · exact (mem_exits.1 hx).2.1
  · exact h.placed y (List.mem_of_mem_take hy)

theorem Path.Leads.edgesAt_loop (h : p.Leads g start node) (hx : x ∈ g.exits node) :
    g.EdgesAt ((p.loop x).map Prod.snd) (p.walk x) := by
  rw [EdgesAt, walk, List.map_map, List.map_map]
  exact List.map_congr_left (h.placed_loop hx)

theorem Path.Leads.ends_mem (h : p.Leads g start node) {y : Edge × Nat} (hy : y ∈ p.edges) :
    y.1.source ∈ p.nodes ∧ y.1.target ∈ p.nodes := by
  constructor
  · rw [h.nodes_eq_sources]
    exact List.mem_cons_of_mem _ (List.mem_map_of_mem (f := fun y : Edge × Nat => y.1.source) hy)
  · rw [h.nodes_eq_targets]
    exact List.mem_append_left _ (List.mem_map_of_mem (f := fun y : Edge × Nat => y.1.target) hy)

/-- No two edges of a path join the same nodes: the newer one leads to a new node. -/
theorem Path.Leads.edges_apart (h : p.Leads g start node) :
    p.edges.Pairwise fun y z => s(y.1.source, y.1.target) ≠ s(z.1.source, z.1.target) := by
  obtain ⟨nodes, edges⟩ := p
  induction edges generalizing nodes node with
  | nil => exact List.Pairwise.nil
  | cons y rest ih =>
      obtain ⟨before, hbefore, rfl, rfl, -⟩ := h.pop
      refine List.pairwise_cons.2 ⟨?_, ih before.nodes hbefore⟩
      intro z hz he
      have hnew : y.1.target ∉ before.nodes := (List.nodup_cons.1 h.nodup).1
      obtain ⟨hsource, htarget⟩ := hbefore.ends_mem hz
      rcases Sym2.eq_iff.1 he with ⟨-, ht⟩ | ⟨-, ht⟩
      · exact hnew (ht ▸ htarget)
      · exact hnew (ht ▸ hsource)

/-- Of two edges of a loop, the closing edge apart, the names tell the nodes apart. -/
theorem Path.Leads.nodup_names (h : p.Leads g start node) (hn : g.NamesJoin)
    (hclosing : ∀ y ∈ p.edges.take (p.nodes.idxOf x.1.target), y.1.name ≠ x.1.name) :
    ((p.walk x).map Edge.name).Nodup := by
  rw [walk, loop, List.map_map, List.map_reverse, List.nodup_reverse, List.map_cons,
    List.nodup_cons]
  constructor
  · intro hmem
    obtain ⟨y, hy, hname⟩ := List.mem_map.1 hmem
    exact hclosing y hy hname
  · apply List.pairwise_map.2
    refine (h.edges_apart.sublist (List.take_sublist _ _)).imp_of_mem ?_
    intro y z hy hz hapart hname
    apply hapart
    exact hn y.1 (List.mem_of_getElem? (h.placed y (List.mem_of_mem_take hy))) z.1
      (List.mem_of_getElem? (h.placed z (List.mem_of_mem_take hz))) hname

end Loop

section Chord

/-- Two members of a ring that are not neighbours on it. -/
theorem anyApartOnRing_iff {α : Type} {q : α → α → Bool} {xs : List α} :
    anyApartOnRing q xs = true ↔
      ∃ i j a b, i + 2 ≤ j ∧ ¬(i = 0 ∧ j + 1 = xs.length) ∧ xs[i]? = some a ∧ xs[j]? = some b ∧
        q a b = true := by
  cases xs with
  | nil => simp [anyApartOnRing]
  | cons a rest =>
      simp only [anyApartOnRing, Bool.or_eq_true, List.any_eq_true, anyApart_iff]
      constructor
      · rintro (⟨b, hb, hq⟩ | ⟨i, j, a', b, hij, ha', hb, hq⟩)
        · obtain ⟨k, hk, rfl⟩ := List.getElem_of_mem hb
          have hlength : k + 2 < rest.length := by
            simp only [List.length_dropLast, List.length_drop] at hk
            omega
          refine ⟨0, k + 2, a, _, by omega, ?_, rfl, ?_, hq⟩
          · rw [List.length_cons]
            omega
          · rw [List.getElem_dropLast, List.getElem_drop, List.getElem?_cons_succ,
              List.getElem?_eq_getElem (by omega)]
            simp only [Nat.add_comm]
        · refine ⟨i + 1, j + 1, a', b, by omega, by omega, ?_, ?_, hq⟩
          · rwa [List.getElem?_cons_succ]
          · rwa [List.getElem?_cons_succ]
      · rintro ⟨i, j, a', b, hij, hends, ha', hb, hq⟩
        obtain ⟨j, rfl⟩ : ∃ k, j = k + 2 := ⟨j - 2, by omega⟩
        have hj : j + 2 < rest.length + 1 := by
          have := (List.getElem?_eq_some_iff.1 hb).1
          rwa [List.length_cons] at this
        cases i with
        | zero =>
            obtain rfl : a = a' := Option.some.inj ha'
            rw [List.length_cons] at hends
            refine .inl ⟨b, List.mem_iff_getElem?.2 ⟨j, ?_⟩, hq⟩
            rw [List.getElem?_dropLast, if_pos, List.getElem?_drop, Nat.add_comm]
            · rwa [List.getElem?_cons_succ] at hb
            · rw [List.length_drop]
              omega
        | succ i =>
            refine .inr ⟨i, j + 1, a', b, by omega, ?_, ?_, hq⟩
            · rwa [List.getElem?_cons_succ] at ha'
            · rwa [List.getElem?_cons_succ] at hb

/-- Neighbours on a ring of `n` places stand side by side or at the two ends. -/
theorem neighbours_iff {n i j : Nat} (hij : i < j) (hj : j < n) :
    (j = (i + 1) % n ∨ i = (j + 1) % n) ↔ (j = i + 1 ∨ (i = 0 ∧ j + 1 = n)) := by
  rw [Nat.mod_eq_of_lt (show i + 1 < n by omega)]
  apply or_congr_right
  by_cases hlast : j + 1 = n
  · rw [hlast, Nat.mod_self, and_iff_left rfl]
  · rw [Nat.mod_eq_of_lt (show j + 1 < n by omega)]
    omega

variable {walk : List Edge} {names : List String}

/-- The test of the search for chords, which passes over edges that have the name of an edge of
the walk. -/
theorem anyApartOnRing_eq_true_iff (hg : g.Inside) (hhas : ∀ e ∈ walk, e ∈ g.edges) :
    anyApartOnRing (joinedBeside g.exits names) (walk.map Edge.source) = true ↔
      ∃ (i j : Nat) (hi : i < walk.length) (hj : j < walk.length), i < j ∧
        ¬(j = (i + 1) % walk.length ∨ i = (j + 1) % walk.length) ∧
        ∃ e ∈ g.edges, e.name ∉ names ∧
          s(e.source, e.target) = s(walk[i].source, walk[j].source) := by
  have hnode : ∀ {k : Nat} (hk : k < walk.length), walk[k].source < g.nodes :=
    fun hk => (hg _ (hhas _ (List.getElem_mem hk))).1
  rw [anyApartOnRing_iff]
  constructor
  · rintro ⟨i, j, a, b, hij, hends, ha, hb, hjoined⟩
    rw [List.getElem?_map, Option.map_eq_some_iff] at ha hb
    obtain ⟨e, he, rfl⟩ := ha
    obtain ⟨f, hf, rfl⟩ := hb
    obtain ⟨hi, rfl⟩ := List.getElem?_eq_some_iff.1 he
    obtain ⟨hj, rfl⟩ := List.getElem?_eq_some_iff.1 hf
    rw [List.length_map] at hends
    obtain ⟨edge, hbetween, hname⟩ := (joinedBeside_iff (hnode hi) (hnode hj)).1 hjoined
    obtain ⟨hedge, hjoins⟩ := mem_between.1 hbetween
    refine ⟨i, j, hi, hj, by omega, ?_, edge, hedge, hname, Edge.joins_iff.1 hjoins⟩
    rw [neighbours_iff (by omega) hj]
    omega
  · rintro ⟨i, j, hi, hj, hij, hapart, e, he, hname, hends⟩
    rw [neighbours_iff hij hj] at hapart
    refine ⟨i, j, walk[i].source, walk[j].source, by omega, ?_, ?_, ?_, ?_⟩
    · rw [List.length_map]
      omega
    · rw [List.getElem?_map, List.getElem?_eq_getElem hi, Option.map_some]
    · rw [List.getElem?_map, List.getElem?_eq_getElem hj, Option.map_some]
    · exact (joinedBeside_iff (hnode hi) (hnode hj)).2
        ⟨e, mem_between.2 ⟨he, Edge.joins_iff.2 hends⟩, hname⟩

theorem chordless_arcs_iff :
    g.arcs.Chordless walk ↔
      ∀ e ∈ g.edges, e.source ∈ walk.map Edge.source → e.target ∈ walk.map Edge.source →
        e.source ≠ e.target → ∃ b ∈ walk, s(b.source, b.target) = s(e.source, e.target) := Iff.rfl

/-- Where names tell nodes apart, passing over the names of the walk makes no difference. -/
theorem chordless_iff (hg : g.Inside) (hn : g.NamesJoin) (hhas : ∀ e ∈ walk, e ∈ g.edges)
    (hclosed : g.arcs.Closed walk) (hnodup : (walk.map Edge.source).Nodup)
    (hnames : ∀ name, name ∈ names ↔ name ∈ walk.map Edge.name) :
    g.arcs.Chordless walk ↔
      anyApartOnRing (joinedBeside g.exits names) (walk.map Edge.source) = false := by
  have hjoined : ∀ {i j : Nat} (hi : i < walk.length) (hj : j < walk.length),
      (∃ b ∈ walk, s(b.source, b.target) = s(walk[i].source, walk[j].source)) ↔
        (j = (i + 1) % walk.length ∨ i = (j + 1) % walk.length) :=
    fun hi hj => hclosed.joined_iff hnodup hi hj
  rw [← Bool.not_eq_true, anyApartOnRing_eq_true_iff hg hhas, chordless_arcs_iff]
  constructor
  · rintro hchordless ⟨i, j, hi, hj, hij, hapart, e, he, -, hends⟩
    have hne : walk[i].source ≠ walk[j].source :=
      fun hsame => hij.ne ((g.arcs.source_getElem_inj hnodup hi hj).1 hsame)
    have hmem : ∀ {k : Nat} (hk : k < walk.length), walk[k].source ∈ walk.map Edge.source :=
      fun hk => List.mem_map_of_mem (List.getElem_mem hk)
    apply hapart
    rw [← hjoined hi hj, ← hends]
    rcases Sym2.eq_iff.1 hends with ⟨hs, ht⟩ | ⟨hs, ht⟩
    · apply hchordless e he
      · exact hs ▸ hmem hi
      · exact ht ▸ hmem hj
      · rwa [hs, ht]
    · apply hchordless e he
      · exact hs ▸ hmem hj
      · exact ht ▸ hmem hi
      · rw [hs, ht]
        exact hne.symm
  · intro hnone e he hsource htarget hne
    by_contra hunjoined
    -- An edge with the name of an edge of the walk would join the same nodes as that one.
    have hname : e.name ∉ names := by
      intro hmem
      obtain ⟨b, hb, hbname⟩ := List.mem_map.1 ((hnames e.name).1 hmem)
      exact hunjoined ⟨b, hb, hn b (hhas b hb) e he hbname⟩
    obtain ⟨i, hi, hs⟩ := List.getElem_of_mem hsource
    obtain ⟨j, hj, ht⟩ := List.getElem_of_mem htarget
    rw [List.getElem_map] at hs ht
    rw [List.length_map] at hi hj
    have hapart : ¬(j = (i + 1) % walk.length ∨ i = (j + 1) % walk.length) := by
      rwa [← hjoined hi hj, hs, ht]
    have hij : i ≠ j := by
      rintro rfl
      exact hne (hs.symm.trans ht)
    rcases Nat.lt_or_gt_of_ne hij with hlt | hlt
    · exact hnone ⟨i, j, hi, hj, hlt, hapart, e, he, hname, by rw [hs, ht]⟩
    · exact hnone ⟨j, i, hj, hi, hlt, fun h => hapart h.symm, e, he, hname,
        by rw [hs, ht, Sym2.eq_swap]⟩

end Chord

section Close

/-- What becomes of a loop. -/
theorem Path.Leads.close?_eq (h : p.Leads g start node) (hx : x ∈ g.exits node) :
    close? g.exits p x.1 x.2 =
      if (p.edges.take (p.nodes.idxOf x.1.target)).any (·.1.name == x.1.name) then none
      else if decide (2 < (p.walk x).length) &&
          anyApartOnRing (joinedBeside g.exits (x.1.name ::
            (p.edges.take (p.nodes.idxOf x.1.target)).map (·.1.name)))
            ((p.walk x).map Edge.source) then none
      else some (p.cycle x) := by
  have hlength : (p.walk x).length =
      (p.nodes.take (p.nodes.idxOf x.1.target + 1)).reverse.length := by
    rw [← h.sources_walk hx, List.length_map]
  have hplaces : (p.loop x).map Prod.snd =
      (x.2 :: (p.edges.take (p.nodes.idxOf x.1.target)).map (·.2)).reverse := by
    rw [Path.loop, List.map_reverse, List.map_cons]
  rw [Path.cycle, hlength, hplaces, h.sources_walk hx]
  rfl

/-- A loop that is kept uses the name of its closing edge once. -/
theorem Path.Leads.closing_ne (h : p.Leads g start node) (hx : x ∈ g.exits node)
    (hc : close? g.exits p x.1 x.2 = some c) :
    c = p.cycle x ∧ ∀ y ∈ p.edges.take (p.nodes.idxOf x.1.target), y.1.name ≠ x.1.name := by
  rw [h.close?_eq hx] at hc
  split at hc
  · cases hc
  · rename_i hused
    split at hc
    · cases hc
    · rw [Bool.not_eq_true, List.any_eq_false] at hused
      exact ⟨(Option.some.inj hc).symm, fun y hy hname => hused y hy (beq_iff_eq.2 hname)⟩

/-- The search keeps the loops that are induced cycles. -/
theorem Path.Leads.close?_eq_some_iff (hg : g.Inside) (hn : g.NamesJoin)
    (h : p.Leads g start node) (hx : x ∈ g.exits node) (hback : x.1.target ∈ p.nodes) :
    close? g.exits p x.1 x.2 = some c ↔ g.arcs.InducedCycle (p.walk x) ∧ c = p.cycle x := by
  have hhas : ∀ e ∈ p.walk x, e ∈ g.edges := by
    intro e he
    obtain ⟨y, hy, rfl⟩ := List.mem_map.1 he
    exact List.mem_of_getElem? (h.placed_loop hx y hy)
  have hnames : ∀ name,
      name ∈ x.1.name :: (p.edges.take (p.nodes.idxOf x.1.target)).map (·.1.name) ↔
        name ∈ (p.walk x).map Edge.name := by
    intro name
    rw [Path.walk, Path.loop, List.map_map, List.map_reverse, List.mem_reverse, List.map_cons]
    rfl
  have hchordless := chordless_iff hg hn hhas (h.closed_walk hx hback) (h.nodup_walk hx) hnames
  constructor
  · intro hc
    obtain ⟨hcycle, hclosing⟩ := h.closing_ne hx hc
    refine ⟨⟨?_, hhas, h.closed_walk hx hback, h.nodup_walk hx, h.nodup_names hn hclosing, ?_⟩,
      hcycle⟩
    · rw [Path.walk, Path.loop, Ne, List.map_eq_nil_iff, List.reverse_eq_nil_iff]
      exact List.cons_ne_nil _ _
    · intro hlength
      rw [hchordless]
      rw [h.close?_eq hx] at hc
      split at hc
      · cases hc
      · split at hc
        · cases hc
        · rename_i hchord
          rwa [decide_eq_true hlength, Bool.true_and, Bool.not_eq_true] at hchord
  · rintro ⟨hinduced, rfl⟩
    have hnodup : ((p.walk x).map Edge.name).Nodup := hinduced.nodup_labels
    rw [h.close?_eq hx, if_neg, if_neg]
    · rw [Bool.and_eq_true, decide_eq_true_iff]
      rintro ⟨hlength, hchord⟩
      rw [hchordless.1 (hinduced.chordless hlength)] at hchord
      cases hchord
    · rw [List.any_eq_true]
      rintro ⟨y, hy, hname⟩
      rw [Path.walk, Path.loop, List.map_map, List.map_reverse, List.nodup_reverse, List.map_cons,
        List.nodup_cons] at hnodup
      exact hnodup.1 (List.mem_map.2 ⟨y, hy, beq_iff_eq.1 hname⟩)

end Close

end ConflictGraph

end LiveIsolation
