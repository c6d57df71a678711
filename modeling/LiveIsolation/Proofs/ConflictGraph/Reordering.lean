import LiveIsolation.Proofs.ConflictGraph.Dangers

/-!
# Workloads in another order

Registered in another order, the transactions of a workload have other numbers (`Reordered`). Edges
then stand elsewhere and point the other way when they are built, and the search starts elsewhere,
but statements conflict as before: the induced cycles of conflicts are the same up to the numbers,
and so is what they endanger (`Reordered.endangered`). Where names tell conflicts apart the graphs
of the two workloads have equally many cycles (`Reordered.length_cycles_le`), because no conflict
stands in a graph twice (`nodup_refs_build`).
-/

namespace LiveIsolation

/-- Members that are related to no common member of another list are not more than it has. -/
theorem length_le_of_related {α β : Type} {R : α → β → Prop} {xs : List α} {ys : List β}
    (hfrom : ∀ x ∈ xs, ∃ y ∈ ys, R x y)
    (hapart : xs.Pairwise fun x x' => ∀ y, R x y → ¬R x' y) : xs.length ≤ ys.length := by
  induction xs generalizing ys with
  | nil => exact Nat.zero_le _
  | cons x rest ih =>
      obtain ⟨hx, hrest⟩ := List.pairwise_cons.1 hapart
      obtain ⟨y, hy, hxy⟩ := hfrom x List.mem_cons_self
      obtain ⟨before, after, rfl⟩ := List.append_of_mem hy
      have hothers : rest.length ≤ (before ++ after).length := by
        apply ih _ hrest
        intro x' hx'
        obtain ⟨z, hz, hxz⟩ := hfrom x' (List.mem_cons_of_mem x hx')
        refine ⟨z, ?_, hxz⟩
        rw [List.mem_append, List.mem_cons] at hz
        rcases hz with hz | rfl | hz
        · exact List.mem_append_left after hz
        · exact absurd hxz (hx x' hx' z hxy)
        · exact List.mem_append_right before hz
      rw [List.length_append] at hothers
      rw [List.length_cons, List.length_append, List.length_cons]
      omega

/-- Lists whose members tell which list they are of make one list without duplicates. -/
theorem nodup_flatMap_of_tag {α β κ : Type} {xs : List α} {f : α → List β} (key : α → κ)
    (tag : β → κ) (hkeys : (xs.map key).Nodup) (hlists : ∀ x ∈ xs, (f x).Nodup)
    (htag : ∀ x ∈ xs, ∀ y ∈ f x, tag y = key x) : (xs.flatMap f).Nodup := by
  rw [List.nodup_flatMap]
  refine ⟨hlists, (List.pairwise_map.1 hkeys).imp_of_mem ?_⟩
  intro x x' hx hx' hne y hy hy'
  exact hne ((htag x hx y hy).symm.trans (htag x' hx' y hy'))

section Places

variable {α : Type} {xs ys : List α}

/-- The first place stays, and the others are taken to others as before. -/
def shifted (place : Equiv.Perm Nat) : Equiv.Perm Nat where
  toFun
    | 0 => 0
    | k + 1 => place k + 1
  invFun
    | 0 => 0
    | k + 1 => place.symm k + 1
  left_inv
    | 0 => rfl
    | k + 1 => congrArg (· + 1) (place.symm_apply_apply k)
  right_inv
    | 0 => rfl
    | k + 1 => congrArg (· + 1) (place.apply_symm_apply k)

/-- The members of a list in another order stand at other places. -/
theorem exists_places_of_perm (h : xs.Perm ys) :
    ∃ place : Equiv.Perm Nat, ∀ k, ys[place k]? = xs[k]? := by
  induction h with
  | nil => exact ⟨Equiv.refl Nat, fun k => rfl⟩
  | cons x h ih =>
      obtain ⟨place, hplace⟩ := ih
      refine ⟨shifted place, ?_⟩
      intro k
      cases k with
      | zero => rfl
      | succ k =>
          rw [List.getElem?_cons_succ, ← hplace]
          exact List.getElem?_cons_succ
  | swap x y xs =>
      refine ⟨Equiv.swap 0 1, ?_⟩
      intro k
      match k with
      | 0 => rw [Equiv.swap_apply_left]; rfl
      | 1 => rw [Equiv.swap_apply_right]; rfl
      | k + 2 => rw [Equiv.swap_apply_of_ne_of_ne (by omega) (by omega)]; rfl
  | trans h h' ih ih' =>
      obtain ⟨place, hplace⟩ := ih
      obtain ⟨place', hplace'⟩ := ih'
      exact ⟨place.trans place', fun k => (hplace' (place k)).trans (hplace k)⟩

end Places

/-- What a transaction is registered as. -/
def Transaction.content (t : Transaction) : String × List Statement := (t.name, t.statements)

namespace ConflictGraph

open Multigraph

section Build

variable {ts : List Transaction} {first second : Transaction} {e : Edge}

theorem orderedPairs_map {α β : Type} (f : α → β) (xs : List α) :
    orderedPairs (xs.map f) = (orderedPairs xs).map (Prod.map f f) := by
  induction xs with
  | nil => rfl
  | cons x rest ih =>
      rw [List.map_cons, orderedPairs, orderedPairs, ih, List.map_append, List.map_map,
        List.map_map]
      rfl

theorem nodup_orderedPairs {α : Type} {xs : List α} (h : xs.Nodup) : (orderedPairs xs).Nodup := by
  induction xs with
  | nil => exact List.nodup_nil
  | cons x rest ih =>
      obtain ⟨hx, hrest⟩ := List.nodup_cons.1 h
      refine List.Nodup.append (hrest.map fun _ _ he => (Prod.mk.inj he).2) (ih hrest) ?_
      intro pair hpair hlater
      obtain ⟨y, -, rfl⟩ := List.mem_map.1 hpair
      obtain ⟨k, l, -, hk, -⟩ := mem_orderedPairs.1 hlater
      exact hx (List.mem_of_getElem? hk)

theorem ids_eq_range (hn : Numbered ts) : ts.map Transaction.id = List.range ts.length := by
  apply List.ext_getElem?
  intro k
  rw [List.getElem?_map]
  cases hk : ts[k]? with
  | none =>
      rw [List.getElem?_eq_none_iff] at hk
      rw [Option.map_none, List.getElem?_eq_none (by rwa [List.length_range])]
  | some t =>
      rw [Option.map_some, hn k t hk, List.getElem?_range (List.getElem?_eq_some_iff.1 hk).1]

/-- The two directions of a conflict are two. -/
theorem nodup_statementEdges (hne : first.id ≠ second.id) (i j : Nat) (a b : Statement) :
    (statementEdges first second i j a b).Nodup := by
  have hnodup : ∀ kind kind' name, ([⟨first.id, second.id, kind, name, i, j⟩,
      ⟨second.id, first.id, kind', name, j, i⟩] : List Edge).Nodup := by
    intro kind kind' name
    rw [List.nodup_cons, List.mem_singleton]
    exact ⟨fun he => hne (congrArg Edge.source he), List.nodup_singleton _⟩
  have hnodup' : ∀ kind kind' name, ([⟨second.id, first.id, kind, name, j, i⟩,
      ⟨first.id, second.id, kind', name, i, j⟩] : List Edge).Nodup := by
    intro kind kind' name
    rw [List.nodup_cons, List.mem_singleton]
    exact ⟨fun he => hne.symm (congrArg Edge.source he), List.nodup_singleton _⟩
  rw [statementEdges]
  split
  · exact List.nodup_nil
  · split
    · exact List.nodup_nil
    · exact hnodup _ _ _
    · exact hnodup' _ _ _
    · exact hnodup _ _ _

/-- The place, in one template, of the statement that an edge joins there. -/
def placeIn (template : Nat) (e : Edge) : Nat :=
  if e.source = template then e.sourceIndex else e.targetIndex

theorem placeIn_of_mem (hne : first.id ≠ second.id) {i j : Nat} {a b : Statement}
    (he : e ∈ statementEdges first second i j a b) :
    placeIn first.id e = i ∧ placeIn second.id e = j := by
  obtain ⟨-, rfl | rfl⟩ := mem_statementEdges.1 he
  · exact ⟨if_pos rfl, if_neg hne⟩
  · exact ⟨if_neg hne.symm, if_pos rfl⟩

theorem nodup_pairEdges (hne : first.id ≠ second.id) : (pairEdges first second).Nodup := by
  have hplaces : ∀ statements : List Statement,
      (statements.zipIdx.map Prod.snd).Nodup := by
    intro statements
    rw [List.zipIdx_map_snd]
    exact List.nodup_range'
  apply nodup_flatMap_of_tag Prod.snd (placeIn first.id) (hplaces _)
  · intro x _
    apply nodup_flatMap_of_tag Prod.snd (placeIn second.id) (hplaces _)
    · exact fun y _ => nodup_statementEdges hne _ _ _ _
    · exact fun y _ e he => (placeIn_of_mem hne he).2
  · intro x _ e he
    obtain ⟨y, -, he⟩ := List.mem_flatMap.1 he
    exact (placeIn_of_mem hne he).1

/-- No edge stands in the graph of a workload twice. -/
theorem nodup_edges_build (hn : Numbered ts) : (build ts).edges.Nodup := by
  apply nodup_flatMap_of_tag (Prod.map Transaction.id Transaction.id)
    fun e : Edge => (e.earlier.template, e.later.template)
  · rw [← orderedPairs_map, ids_eq_range hn]
    exact nodup_orderedPairs List.nodup_range
  · rintro ⟨first, second⟩ hpair
    exact (nodup_pairEdges (id_ne_of_mem_orderedPairs hn hpair)).filter _
  · rintro ⟨first, second⟩ hpair e he
    obtain ⟨t, u, i, j, name, a, b, h, -, -, -, -, -, rfl⟩ :=
      (mem_removeDominated (id_ne_of_mem_orderedPairs hn hpair)).1 he
    obtain ⟨k, l, hkl, hfirst, hsecond⟩ := mem_orderedPairs.1 hpair
    rw [← hn k first hfirst, ← hn l second hsecond] at hkl
    cases h with
    | forward =>
        rw [Edge.earlier, Edge.later, edgeFrom, if_pos hkl, if_pos hkl]
        rfl
    | backward =>
        rw [Edge.earlier, Edge.later, edgeFrom, if_neg (Nat.lt_asymm hkl),
          if_neg (Nat.lt_asymm hkl)]
        rfl

/-- An edge is told by the statements that it joins. -/
theorem edge_eq_of_refs_eq (hn : Numbered ts) {f : Edge} (he : e ∈ (build ts).edges)
    (hf : f ∈ (build ts).edges) (hrefs : e.refs = f.refs) : e = f := by
  obtain ⟨a, b, h, hkind, hname⟩ := (mem_build_edges hn).1 he
  obtain ⟨a', b', h', hkind', hname'⟩ := (mem_build_edges hn).1 hf
  obtain ⟨hsource, htarget⟩ := Prod.mk.inj hrefs
  rw [hsource, htarget] at h
  obtain ⟨rfl, rfl⟩ := h.unique h'
  rw [hsource, htarget, ← hname'] at hname
  obtain ⟨source, target, kind, name, sourceIndex, targetIndex⟩ := e
  obtain ⟨rfl, rfl⟩ := StatementRef.mk.inj hsource
  obtain ⟨rfl, rfl⟩ := StatementRef.mk.inj htarget
  obtain rfl : kind = f.kind := hkind.trans hkind'.symm
  obtain rfl : name = f.name := hname
  rfl

/-- No conflict stands in the graph of a workload twice in one direction. -/
theorem nodup_refs_build (hn : Numbered ts) : ((build ts).edges.map Edge.refs).Nodup :=
  (nodup_edges_build hn).map_on fun _ he _ hf => edge_eq_of_refs_eq hn he hf

/-- Where something tells edges apart, it tells their places. -/
theorem EdgesAt.places_eq {γ : Type} [DecidableEq γ] {g : ConflictGraph} {f : Edge → γ}
    {places : List Nat} {walk : List Edge} (h : g.EdgesAt places walk)
    (hnodup : (g.edges.map f).Nodup) :
    places = (walk.map f).map fun y => (g.edges.map f).idxOf y := by
  obtain ⟨ring, rfl, rfl, hplaced⟩ := h.exists_placed
  rw [List.map_map, List.map_map]
  apply List.map_congr_left
  intro y hy
  obtain ⟨hlt, hget⟩ := List.getElem?_eq_some_iff.1 (hplaced y hy)
  have hlt' : y.2 < (g.edges.map f).length := by rwa [List.length_map]
  have hidx := hnodup.idxOf_getElem y.2 hlt'
  rw [List.getElem_map, hget] at hidx
  exact hidx.symm

end Build

section Order

variable {ts us : List Transaction} {number : Equiv.Perm Nat} {p q : StatementRef}
  {a b : Statement} {d : Discipline}

/-- Two workloads have the same transactions under other numbers. -/
def Reordered (ts us : List Transaction) (number : Equiv.Perm Nat) : Prop :=
  ∀ k, us[number k]?.map Transaction.content = ts[k]?.map Transaction.content

theorem exists_reordered
    (h : (ts.map Transaction.content).Perm (us.map Transaction.content)) :
    ∃ number, Reordered ts us number := by
  obtain ⟨number, hplace⟩ := exists_places_of_perm h
  refine ⟨number, ?_⟩
  intro k
  rw [← List.getElem?_map, ← List.getElem?_map, hplace]

/-- The reference to the same statement under the other number. -/
def renumbered (number : Equiv.Perm Nat) (p : StatementRef) : StatementRef :=
  ⟨number p.template, p.index⟩

theorem renumbered_symm (number : Equiv.Perm Nat) (p : StatementRef) :
    renumbered number.symm (renumbered number p) = p :=
  StatementRef.eq_of_parts (number.symm_apply_apply _) rfl

theorem renumbered_injective (number : Equiv.Perm Nat) :
    Function.Injective (renumbered number) :=
  Function.LeftInverse.injective (renumbered_symm number)

/-- A conflict under the other numbers. -/
def conflictUnder (number : Equiv.Perm Nat) :
    StatementRef × StatementRef → StatementRef × StatementRef :=
  Prod.map (renumbered number) (renumbered number)

theorem conflictUnder_symm (number : Equiv.Perm Nat) (c : StatementRef × StatementRef) :
    conflictUnder number.symm (conflictUnder number c) = c :=
  Prod.ext (renumbered_symm number c.1) (renumbered_symm number c.2)

theorem conflictUnder_injective (number : Equiv.Perm Nat) :
    Function.Injective (conflictUnder number) :=
  Function.LeftInverse.injective (conflictUnder_symm number)

namespace Reordered

theorem symm (h : Reordered ts us number) : Reordered us ts number.symm := by
  intro k
  have hk := h (number.symm k)
  rw [number.apply_symm_apply] at hk
  exact hk.symm

/-- The same transaction stands under its other number. -/
theorem template (h : Reordered ts us number) {k : Nat} {t : Transaction} (ht : ts[k]? = some t) :
    ∃ u, us[number k]? = some u ∧ u.name = t.name ∧ u.statements = t.statements := by
  have hcontent := h k
  rw [ht, Option.map_some, Option.map_eq_some_iff] at hcontent
  obtain ⟨u, hu, hcontent⟩ := hcontent
  obtain ⟨hname, hstatements⟩ := Prod.mk.inj hcontent
  exact ⟨u, hu, hname, hstatements⟩

/-- A statement takes part in conflicts whatever the number of its transaction. -/
theorem exposed (h : Reordered ts us number) (hp : ∃ t, Exposed ts p t a) :
    ∃ u, Exposed us (renumbered number p) u a := by
  obtain ⟨t, htemplate, hstatement, hexposes⟩ := hp
  obtain ⟨u, hu, -, hstatements⟩ := h.template htemplate
  refine ⟨u, hu, hstatements ▸ hstatement, ?_⟩
  rw [Transaction.Exposes, Transaction.Covers, hstatements]
  exact hexposes

theorem conflict (h : Reordered ts us number) (hpq : Conflict ts p q a b) :
    Conflict us (renumbered number p) (renumbered number q) a b where
  apart := number.injective.ne hpq.apart
  source := h.exposed hpq.source
  target := h.exposed hpq.target
  relation := hpq.relation
  writes := hpq.writes

theorem conflict_iff (h : Reordered ts us number) :
    Conflict us (renumbered number p) (renumbered number q) a b ↔ Conflict ts p q a b := by
  constructor
  · intro hpq
    have hback := h.symm.conflict hpq
    rwa [renumbered_symm, renumbered_symm] at hback
  · exact h.conflict

theorem readsFirst_iff (h : Reordered ts us number) (c : StatementRef × StatementRef) :
    ReadsFirst us (conflictUnder number c) ↔ ReadsFirst ts c := by
  rw [ReadsFirst, ReadsFirst]
  simp only [conflictUnder, Prod.map, h.conflict_iff]

/-- A cycle of conflicts is one under the other numbers. -/
theorem inducedCycle_iff (h : Reordered ts us number) {walk : List (StatementRef × StatementRef)}
    (hwalk : ∀ c ∈ walk, (conflicts ts).Has c) :
    (conflicts us).InducedCycle (walk.map (conflictUnder number)) ↔
      (conflicts ts).InducedCycle walk := by
  apply inducedCycle_map_iff number.injective
  · exact fun _ => rfl
  · exact fun _ => rfl
  · intro c
    constructor
    · rintro ⟨a, b, hc⟩
      exact ⟨conflictUnder number.symm c, ⟨a, b, h.symm.conflict hc⟩,
        conflictUnder_symm number.symm c⟩
    · rintro ⟨c, ⟨a, b, hc⟩, rfl⟩
      exact ⟨a, b, h.conflict hc⟩
  · exact hwalk
  · intro c _ c' _
    change s(renumbered number c.1, renumbered number c.2) =
      s(renumbered number c'.1, renumbered number c'.2) ↔ s(c.1, c.2) = s(c'.1, c'.2)
    rw [← Sym2.map_mk, ← Sym2.map_mk]
    exact (Sym2.map.injective (renumbered_injective number)).eq_iff

/-- What is endangered is endangered under its other number. -/
theorem endangered (h : Reordered ts us number) (hp : Endangered ts d p) :
    Endangered us d (renumbered number p) := by
  obtain ⟨walk, hwalk, c, hc, hdanger, hend⟩ := hp
  refine ⟨walk.map (conflictUnder number), (h.inducedCycle_iff hwalk.has).2 hwalk,
    conflictUnder number c, List.mem_map_of_mem hc, ?_, ?_⟩
  · rw [endangering_map_iff (fun c _ c' _ he => conflictUnder_injective number he)
      (fun c _ => h.readsFirst_iff c) hc]
    exact hdanger
  · exact hend.imp (congrArg (renumbered number)) (congrArg (renumbered number))

end Reordered

/-- The cycles of two workloads have the same conflicts in the same order round. -/
def SameRing (ts us : List Transaction) (number : Equiv.Perm Nat) (c d : Cycle) : Prop :=
  ((c.edgesIn (build ts)).map Edge.refs).map (conflictUnder number) ~r
    (d.edgesIn (build us)).map Edge.refs

/-- Each cycle is found in the other order too. -/
theorem Reordered.exists_sameRing (h : Reordered ts us number) (hn : Numbered ts)
    (hm : Numbered us) (ha : NamesApart ts) (hb : NamesApart us) {c : Cycle}
    (hc : c ∈ (build ts).cycles) : ∃ d ∈ (build us).cycles, SameRing ts us number c d := by
  obtain ⟨walk, hplaces, hwalk, -⟩ := induced_of_mem_cycles (inside_build hn) ha.namesJoin hc
  have hconflicts := (inducedCycle_refs_iff hn ha hwalk.has).2 hwalk
  have hrenumbered := (h.inducedCycle_iff hconflicts.has).2 hconflicts
  obtain ⟨other, hother, hedges⟩ := exists_map_refs hm hrenumbered.has
  rw [← hother, inducedCycle_refs_iff hm hb hedges] at hrenumbered
  obtain ⟨places, hplaces'⟩ := exists_edgesAt hedges
  obtain ⟨d, hd, hrotated⟩ := exists_cycle (inside_build hm) hb.namesJoin hplaces' hrenumbered
  obtain ⟨found, hfound, -, -⟩ := induced_of_mem_cycles (inside_build hm) hb.namesJoin hd
  refine ⟨d, hd, ?_⟩
  rw [SameRing, edgesIn_eq hplaces, edgesIn_eq hfound, ← hother]
  exact ((hfound.isRotated hplaces' hrotated).symm.map Edge.refs)

/-- Cycles that are one cycle in the other order differ by rotation only. -/
theorem SameRing.isRotated {c c' d : Cycle} (hn : Numbered ts) (ha : NamesApart ts)
    (hc : c ∈ (build ts).cycles) (hc' : c' ∈ (build ts).cycles)
    (h : SameRing ts us number c d) (h' : SameRing ts us number c' d) : c.edges ~r c'.edges := by
  obtain ⟨walk, hplaces, -, -⟩ := induced_of_mem_cycles (inside_build hn) ha.namesJoin hc
  obtain ⟨walk', hplaces', -, -⟩ := induced_of_mem_cycles (inside_build hn) ha.namesJoin hc'
  rw [SameRing, edgesIn_eq hplaces] at h
  rw [SameRing, edgesIn_eq hplaces'] at h'
  have hback : ∀ conflicts : List (StatementRef × StatementRef),
      (conflicts.map (conflictUnder number)).map (conflictUnder number.symm) = conflicts := by
    intro conflicts
    rw [List.map_map]
    exact (List.map_congr_left fun c _ => conflictUnder_symm number c).trans (List.map_id _)
  have hrefs : walk.map Edge.refs ~r walk'.map Edge.refs := by
    rw [← hback (walk.map Edge.refs), ← hback (walk'.map Edge.refs)]
    exact (h.trans h'.symm).map _
  rw [hplaces.places_eq (nodup_refs_build hn), hplaces'.places_eq (nodup_refs_build hn)]
  exact hrefs.map _

/-- Another order loses no cycle. -/
theorem Reordered.length_cycles_le (h : Reordered ts us number) (hn : Numbered ts)
    (hm : Numbered us) (ha : NamesApart ts) (hb : NamesApart us) :
    (build ts).cycles.length ≤ (build us).cycles.length := by
  apply length_le_of_related fun c hc => h.exists_sameRing hn hm ha hb hc
  refine (pairwise_not_isRotated (inside_build hn) ha.namesJoin).imp_of_mem ?_
  intro c c' hc hc' hapart d hd hd'
  exact hapart (hd.isRotated hn ha hc hc' hd')

end Order

end ConflictGraph

end LiveIsolation
