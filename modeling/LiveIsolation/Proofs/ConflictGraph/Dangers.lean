import LiveIsolation.ConflictGraph.Danger
import LiveIsolation.Proofs.ConflictGraph.Names

/-!
# Endangered statements

Which statements a discipline has to validate is said of the conflicts of the statements
(`Endangered`): no search comes into it, and no name. Wherever names tell conflicts apart, the
report of the conflict graph lists exactly these statements (`mem_refs_build_iff`).
-/

namespace LiveIsolation

namespace Multigraph

variable {α β : Type} {R : α → Prop} {S : β → Prop} {walk : List α} {d : Discipline} {a : α}

/-- What makes an arc of a ring dangerous, where `R` says which arcs lead from a read to a write:
under read committed to be such an arc, under snapshot isolation also to come right after one. -/
def Endangering (R : α → Prop) (walk : List α) : Discipline → α → Prop
  | .readCommitted, a => R a
  | .snapshot, a => R a ∧ ∃ b, Precedes walk b a ∧ R b

theorem endangering_congr {other : List α} (h : walk ~r other) :
    Endangering R walk d a ↔ Endangering R other d a := by
  cases d with
  | readCommitted => exact Iff.rfl
  | snapshot =>
      apply and_congr_right'
      apply exists_congr
      intro b
      rw [precedes_congr h]

theorem endangering_map_iff {f : α → β} (hinj : ∀ a ∈ walk, ∀ b ∈ walk, f a = f b → a = b)
    (hR : ∀ a ∈ walk, S (f a) ↔ R a) (ha : a ∈ walk) :
    Endangering S (walk.map f) d (f a) ↔ Endangering R walk d a := by
  cases d with
  | readCommitted => exact hR a ha
  | snapshot =>
      rw [Endangering, Endangering, hR a ha]
      apply and_congr_right'
      constructor
      · rintro ⟨c, hbefore, hc⟩
        obtain ⟨a', b, hprecedes, he, rfl⟩ := precedes_map_iff.1 hbefore
        obtain rfl := hinj a' hprecedes.mem.2 a ha he
        exact ⟨b, hprecedes, (hR b hprecedes.mem.1).1 hc⟩
      · rintro ⟨b, hprecedes, hb⟩
        exact ⟨f b, precedes_map_iff.2 ⟨a, b, hprecedes, rfl, rfl⟩, (hR b hprecedes.mem.1).2 hb⟩

end Multigraph

open Multigraph

section Report

variable {g : ConflictGraph} {c : Cycle} {p : StatementRef} {d : Discipline}

/-- The statements that an edge joins, in its direction. -/
def Edge.refs (e : Edge) : StatementRef × StatementRef := (e.sourceRef, e.targetRef)

/-- The edge leads from a read to a write. -/
def Edge.ReadsFirst (e : Edge) : Prop := e.kind = .readWrite

/-- The statements that a discipline has to validate because of a cycle. -/
def Cycle.refs (c : Cycle) (g : ConflictGraph) : Discipline → List StatementRef
  | .readCommitted => c.readCommittedRefs g
  | .snapshot => c.snapshotRefs g

/-- The statements that a discipline has to validate. -/
def DangerReport.refs (r : DangerReport) : Discipline → List StatementRef
  | .readCommitted => r.readCommitted
  | .snapshot => r.snapshot

theorem Edge.mem_pair {e : Edge} : p ∈ e.pair ↔ p ∈ [e.sourceRef, e.targetRef] := by
  rw [Edge.pair, Sym2.mem_iff, List.mem_pair]

theorem Cycle.mem_consecutiveReadWrites {k : Nat} :
    k ∈ c.consecutiveReadWrites g ↔ ∃ e f, (c.edgesIn g)[k]? = some e ∧
      (c.edgesIn g)[(k + (c.edgesIn g).length - 1) % (c.edgesIn g).length]? = some f ∧
      e.ReadsFirst ∧ f.ReadsFirst := by
  simp only [consecutiveReadWrites, List.mem_filter, List.mem_range, List.length_map,
    Bool.and_eq_true, beq_iff_eq, List.getElem?_map, Option.map_eq_some_iff]
  constructor
  · rintro ⟨-, ⟨f, hf, hfkind⟩, e, he, hekind⟩
    exact ⟨e, f, he, hf, hekind, hfkind⟩
  · rintro ⟨e, f, he, hf, hekind, hfkind⟩
    exact ⟨(List.getElem?_eq_some_iff.1 he).1, ⟨f, hf, hfkind⟩, e, he, hekind⟩

/-- The statements of a cycle are the ends of its dangerous edges. -/
theorem Cycle.mem_refs :
    p ∈ c.refs g d ↔
      ∃ e ∈ c.edgesIn g, Endangering Edge.ReadsFirst (c.edgesIn g) d e ∧ p ∈ e.pair := by
  cases d with
  | readCommitted =>
      simp only [refs, readCommittedRefs, List.mem_flatMap, List.mem_filter, beq_iff_eq,
        Edge.mem_pair, and_assoc]
      rfl
  | snapshot =>
      simp only [refs, snapshotRefs, List.mem_flatMap, mem_consecutiveReadWrites, Edge.mem_pair]
      constructor
      · rintro ⟨k, ⟨e, f, he, hf, hefirst, hffirst⟩, hp⟩
        simp only [he] at hp
        exact ⟨e, List.mem_of_getElem? he, ⟨hefirst, f, ⟨k, he, hf⟩, hffirst⟩, hp⟩
      · rintro ⟨e, -, ⟨hefirst, f, ⟨k, he, hf⟩, hffirst⟩, hp⟩
        refine ⟨k, ⟨e, f, he, hf, hefirst, hffirst⟩, ?_⟩
        simp only [he]
        exact hp

namespace ConflictGraph

theorem mem_refs_dangers : p ∈ g.dangers.refs d ↔ ∃ c ∈ g.cycles, p ∈ c.refs g d := by
  cases d with
  | readCommitted => simp only [DangerReport.refs, dangers, Ordered.mem_ofList, List.mem_flatMap,
      Cycle.refs]
  | snapshot => simp only [DangerReport.refs, dangers, Ordered.mem_ofList, List.mem_flatMap,
      Cycle.refs]

/-- A report speaks of ends of edges only. -/
theorem exists_edge_of_mem_refs (hp : p ∈ g.dangers.refs d) : ∃ e ∈ g.edges, p ∈ e.pair := by
  obtain ⟨c, -, hp⟩ := mem_refs_dangers.1 hp
  obtain ⟨e, he, -, hp⟩ := Cycle.mem_refs.1 hp
  exact ⟨e, mem_of_mem_edgesIn he, hp⟩

theorem exists_edgesAt {walk : List Edge} (h : ∀ e ∈ walk, e ∈ g.edges) :
    ∃ places, g.EdgesAt places walk := by
  induction walk with
  | nil => exact ⟨[], rfl⟩
  | cons e rest ih =>
      obtain ⟨i, hi⟩ := List.mem_iff_getElem?.1 (h e List.mem_cons_self)
      obtain ⟨places, hplaces⟩ := ih fun f hf => h f (List.mem_cons_of_mem e hf)
      refine ⟨i :: places, ?_⟩
      rw [EdgesAt, List.map_cons, List.map_cons, hi, hplaces]

/-- Walks at places that differ by rotation differ by rotation. -/
theorem EdgesAt.isRotated {places others : List Nat} {walk other : List Edge}
    (h : g.EdgesAt places walk) (hother : g.EdgesAt others other) (hrotated : places ~r others) :
    walk ~r other := by
  obtain ⟨n, rfl⟩ := hrotated
  refine ⟨n, List.map_injective_iff.2 (Option.some_injective Edge) ?_⟩
  rw [List.map_rotate, ← show places.map (g.edges[·]?) = walk.map some from h, ← List.map_rotate]
  exact hother

/-- The statements of a cycle may be read off its edges from any of them on. -/
theorem EdgesAt.mem_refs {walk other : List Edge} (h : g.EdgesAt c.edges walk)
    (hrotated : walk ~r other) : p ∈ c.refs g d ↔
      ∃ e ∈ other, Endangering Edge.ReadsFirst other d e ∧ p ∈ e.pair := by
  rw [Cycle.mem_refs, edgesIn_eq h]
  apply exists_congr
  intro e
  rw [hrotated.mem_iff, endangering_congr hrotated]

/-- Where names tell nodes apart, the statements of the report are the ends of the dangerous edges
of induced cycles. -/
theorem mem_refs_iff (hg : g.Inside) (hn : g.NamesJoin) :
    p ∈ g.dangers.refs d ↔ ∃ walk, g.arcs.InducedCycle walk ∧
      ∃ e ∈ walk, Endangering Edge.ReadsFirst walk d e ∧ p ∈ e.pair := by
  rw [mem_refs_dangers]
  constructor
  · rintro ⟨c, hc, hp⟩
    obtain ⟨walk, hplaces, hinduced, -⟩ := induced_of_mem_cycles hg hn hc
    exact ⟨walk, hinduced, (hplaces.mem_refs (List.IsRotated.refl walk)).1 hp⟩
  · rintro ⟨walk, hinduced, hdanger⟩
    obtain ⟨places, hplaces⟩ := exists_edgesAt hinduced.has
    obtain ⟨c, hc, hrotated⟩ := exists_cycle hg hn hplaces hinduced
    obtain ⟨found, hfound, -, -⟩ := induced_of_mem_cycles hg hn hc
    exact ⟨c, hc, (hfound.mem_refs (hfound.isRotated hplaces hrotated)).2 hdanger⟩

end ConflictGraph

end Report

namespace ConflictGraph

variable {ts : List Transaction} {p q : StatementRef} {d : Discipline} {e f : Edge}
  {a b a' b' : Statement}

/-- The conflicts of the statements of some templates, each from one of its statements to the
other. The two directions of a conflict count as one. -/
def conflicts (ts : List Transaction) :
    Multigraph (StatementRef × StatementRef) (Sym2 StatementRef) where
  source c := c.1.template
  target c := c.2.template
  label c := s(c.1, c.2)
  Has c := ∃ a b, Conflict ts c.1 c.2 a b

/-- The conflict leads from a statement that reads to one that writes. -/
def ReadsFirst (ts : List Transaction) (c : StatementRef × StatementRef) : Prop :=
  ∃ a b, Conflict ts c.1 c.2 a b ∧ a.kind.isWrite = false ∧ b.kind.isWrite = true

/-- The discipline has to validate a statement: it is an end of a dangerous conflict of an induced
cycle. -/
def Endangered (ts : List Transaction) (d : Discipline) (p : StatementRef) : Prop :=
  ∃ walk, (conflicts ts).InducedCycle walk ∧
    ∃ c ∈ walk, Endangering (ReadsFirst ts) walk d c ∧ (p = c.1 ∨ p = c.2)

/-- Different conflicts have different names. -/
def NamesApart (ts : List Transaction) : Prop :=
  ∀ e ∈ (build ts).edges, ∀ f ∈ (build ts).edges, e.name = f.name → e.pair = f.pair

instance (ts : List Transaction) : Decidable (NamesApart ts) :=
  inferInstanceAs (Decidable (∀ e ∈ (build ts).edges, ∀ f ∈ (build ts).edges,
    e.name = f.name → e.pair = f.pair))

theorem NamesApart.namesJoin (h : NamesApart ts) : (build ts).NamesJoin :=
  fun e he f hf hname => Edge.ends_eq_of_pair_eq (h e he f hf hname)

theorem Conflict.unique (h : Conflict ts p q a b) (h' : Conflict ts p q a' b') :
    a = a' ∧ b = b' := by
  have hexposed : ∀ {r : StatementRef} {t t' : Transaction} {x x' : Statement},
      Exposed ts r t x → Exposed ts r t' x' → x = x' := by
    intro r t t' x x' hx hx'
    have ht : t = t' := Option.some.inj (hx.template.symm.trans hx'.template)
    rw [← ht] at hx'
    exact Option.some.inj (hx.statement.symm.trans hx'.statement)
  obtain ⟨t, ht⟩ := h.source
  obtain ⟨u, hu⟩ := h.target
  obtain ⟨t', ht'⟩ := h'.source
  obtain ⟨u', hu'⟩ := h'.target
  exact ⟨hexposed ht ht', hexposed hu hu'⟩

/-- The conflicts are what the edges stand for. -/
theorem has_conflicts_iff (hn : Numbered ts) (c : StatementRef × StatementRef) :
    (conflicts ts).Has c ↔ ∃ e, (build ts).arcs.Has e ∧ e.refs = c := by
  constructor
  · rintro ⟨a, b, h⟩
    refine ⟨⟨c.1.template, c.2.template, kindOf a b, nameBetween ts c.1 c.2, c.1.index, c.2.index⟩,
      (mem_build_edges hn).2 ⟨a, b, h, rfl, rfl⟩, rfl⟩
  · rintro ⟨e, he, rfl⟩
    obtain ⟨a, b, h, -, -⟩ := (mem_build_edges hn).1 he
    exact ⟨a, b, h⟩

theorem readsFirst_refs_iff (hn : Numbered ts) (he : e ∈ (build ts).edges) :
    ReadsFirst ts e.refs ↔ e.ReadsFirst := by
  obtain ⟨a, b, h, hkind, -⟩ := (mem_build_edges hn).1 he
  rw [Edge.ReadsFirst, hkind, kindOf_eq_readWrite_iff]
  constructor
  · rintro ⟨a', b', h', hread, -⟩
    rw [(h.unique h').1]
    exact hread
  · intro hread
    refine ⟨a, b, h, hread, h.writes.resolve_left ?_⟩
    rw [hread]
    exact Bool.false_ne_true

/-- The directions of one conflict have one name. -/
theorem name_eq_of_pair_eq (hn : Numbered ts) (he : e ∈ (build ts).edges)
    (hf : f ∈ (build ts).edges) (h : e.pair = f.pair) : e.name = f.name := by
  obtain ⟨hearlier, hlater⟩ :=
    (Edge.pair_eq_iff (ends_of_mem_build hn he).2.2 (ends_of_mem_build hn hf).2.2).1 h
  obtain ⟨-, -, -, -, hename⟩ := (mem_build_edges hn).1 he
  obtain ⟨-, -, -, -, hfname⟩ := (mem_build_edges hn).1 hf
  rw [hename, hfname, nameBetween_eq, nameBetween_eq, hearlier, hlater]

/-- Cycles of edges and cycles of conflicts are the same. -/
theorem inducedCycle_refs_iff (hn : Numbered ts) (ha : NamesApart ts) {walk : List Edge}
    (hwalk : ∀ e ∈ walk, e ∈ (build ts).edges) :
    (conflicts ts).InducedCycle (walk.map Edge.refs) ↔ (build ts).arcs.InducedCycle walk := by
  apply inducedCycle_map_iff Function.injective_id
  · exact fun _ => rfl
  · exact fun _ => rfl
  · exact has_conflicts_iff hn
  · exact hwalk
  · intro e he f hf
    constructor
    · exact name_eq_of_pair_eq hn (hwalk e he) (hwalk f hf)
    · exact ha e (hwalk e he) f (hwalk f hf)

/-- A walk along conflicts is a walk along edges. -/
theorem exists_map_refs (hn : Numbered ts) {walk : List (StatementRef × StatementRef)}
    (h : ∀ c ∈ walk, (conflicts ts).Has c) :
    ∃ edges : List Edge, edges.map Edge.refs = walk ∧ ∀ e ∈ edges, e ∈ (build ts).edges := by
  induction walk with
  | nil => exact ⟨[], rfl, fun e he => absurd he List.not_mem_nil⟩
  | cons c rest ih =>
      obtain ⟨e, he, rfl⟩ := (has_conflicts_iff hn c).1 (h c List.mem_cons_self)
      obtain ⟨edges, rfl, hedges⟩ := ih fun c hc => h c (List.mem_cons_of_mem _ hc)
      refine ⟨e :: edges, rfl, ?_⟩
      intro f hf
      rcases List.mem_cons.1 hf with rfl | hf
      · exact he
      · exact hedges f hf

/-- The report of a workload in which names tell conflicts apart lists the endangered statements.
-/
theorem mem_refs_build_iff (hn : Numbered ts) (ha : NamesApart ts) :
    p ∈ (build ts).dangers.refs d ↔ Endangered ts d p := by
  have hdanger : ∀ {walk : List Edge} {e : Edge}, (build ts).arcs.InducedCycle walk → e ∈ walk →
      (Endangering (ReadsFirst ts) (walk.map Edge.refs) d e.refs ↔
        Endangering Edge.ReadsFirst walk d e) := by
    intro walk e hinduced he
    apply endangering_map_iff
    · intro e he f hf hrefs
      apply List.inj_on_of_nodup_map hinduced.nodup_nodes he hf
      exact congrArg (·.1.template) hrefs
    · exact fun e he => readsFirst_refs_iff hn (hinduced.has e he)
    · exact he
  rw [mem_refs_iff (inside_build hn) ha.namesJoin]
  constructor
  · rintro ⟨walk, hinduced, e, he, hdangerous, hp⟩
    exact ⟨walk.map Edge.refs, (inducedCycle_refs_iff hn ha hinduced.has).2 hinduced, e.refs,
      List.mem_map_of_mem he, (hdanger hinduced he).2 hdangerous, Sym2.mem_iff.1 hp⟩
  · rintro ⟨walk, hinduced, c, hc, hdangerous, hp⟩
    obtain ⟨walk, rfl, hwalk⟩ := exists_map_refs hn hinduced.has
    obtain ⟨e, he, rfl⟩ := List.mem_map.1 hc
    rw [inducedCycle_refs_iff hn ha hwalk] at hinduced
    exact ⟨walk, hinduced, e, he, (hdanger hinduced he).1 hdangerous, Sym2.mem_iff.2 hp⟩

end ConflictGraph

end LiveIsolation
