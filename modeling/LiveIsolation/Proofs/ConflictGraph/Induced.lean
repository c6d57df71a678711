import LiveIsolation.ConflictGraph.Cycle
import Mathlib.Data.List.Rotate
import Mathlib.Data.Sym.Sym2

/-!
# Induced cycles

A cycle of a multigraph is a closed walk along its arcs that comes to no node twice and uses no
label twice. If it has more than two nodes it is induced when every arc of the graph between
different nodes of the cycle joins neighbours on it. All this is said of the walk as a ring
(`Multigraph.InducedCycle.rotate`), and without a search.

The edges of a conflict graph, with their names as labels, are such arcs.
-/

namespace LiveIsolation

/-- Arcs between numbered nodes. Arcs with one label count as one. -/
structure Multigraph (α τ : Type) where
  source : α → Nat
  target : α → Nat
  label : α → τ
  /-- The arc belongs to the graph. -/
  Has : α → Prop

namespace Multigraph

variable {α β τ σ : Type} {m : Multigraph α τ} {walk : List α}

/-- The two nodes that an arc joins. -/
def ends (m : Multigraph α τ) (a : α) : Sym2 Nat := s(m.source a, m.target a)

/-- Each arc of a walk leads to where the next one begins, and the last one to where the first
one begins. -/
def Closed (m : Multigraph α τ) (walk : List α) : Prop :=
  walk.map m.target = (walk.map m.source).rotate 1

/-- Between different nodes of a walk there is no arc but those that join neighbours on it. -/
def Chordless (m : Multigraph α τ) (walk : List α) : Prop :=
  ∀ a, m.Has a → m.source a ∈ walk.map m.source → m.target a ∈ walk.map m.source →
    m.source a ≠ m.target a → ∃ b ∈ walk, m.ends b = m.ends a

structure InducedCycle (m : Multigraph α τ) (walk : List α) : Prop where
  ne_nil : walk ≠ []
  has : ∀ a ∈ walk, m.Has a
  closed : m.Closed walk
  nodup_nodes : (walk.map m.source).Nodup
  nodup_labels : (walk.map m.label).Nodup
  chordless : 2 < walk.length → m.Chordless walk

theorem Closed.rotate (h : m.Closed walk) (n : Nat) : m.Closed (walk.rotate n) := by
  rw [Closed, List.map_rotate, List.map_rotate, h, List.rotate_rotate, List.rotate_rotate,
    Nat.add_comm]

/-- A cycle may begin at any of its nodes. -/
theorem InducedCycle.rotate (h : m.InducedCycle walk) (n : Nat) :
    m.InducedCycle (walk.rotate n) where
  ne_nil := by
    rw [Ne, List.rotate_eq_nil_iff]
    exact h.ne_nil
  has a ha := h.has a (List.mem_rotate.1 ha)
  closed := h.closed.rotate n
  nodup_nodes := by
    rw [List.map_rotate, List.nodup_rotate]
    exact h.nodup_nodes
  nodup_labels := by
    rw [List.map_rotate, List.nodup_rotate]
    exact h.nodup_labels
  chordless hlength a ha hsource htarget hne := by
    rw [List.length_rotate] at hlength
    rw [List.map_rotate, List.mem_rotate] at hsource htarget
    obtain ⟨b, hb, hends⟩ := h.chordless hlength a ha hsource htarget hne
    exact ⟨b, List.mem_rotate.2 hb, hends⟩

/-- The arc at a place of a closed walk leads from its node to the next one on the ring. -/
theorem Closed.target_getElem (h : m.Closed walk) {k : Nat} (hk : k < walk.length)
    (hlt : (k + 1) % walk.length < walk.length) :
    m.target walk[k] = m.source walk[(k + 1) % walk.length] := by
  have htarget : (walk.map m.target)[k]? = ((walk.map m.source).rotate 1)[k]? :=
    congrArg (·[k]?) h
  rw [List.getElem?_rotate (by rwa [List.length_map])] at htarget
  simpa [List.getElem?_eq_getElem hk, List.getElem?_eq_getElem hlt] using htarget

/-- A walk without a repeated node comes to a node at one place. -/
theorem source_getElem_inj (hnodup : (walk.map m.source).Nodup) {i j : Nat}
    (hi : i < walk.length) (hj : j < walk.length) :
    m.source walk[i] = m.source walk[j] ↔ i = j := by
  have hi' : i < (walk.map m.source).length := by rwa [List.length_map]
  have hj' : j < (walk.map m.source).length := by rwa [List.length_map]
  have hinj : (walk.map m.source)[i] = (walk.map m.source)[j] ↔ i = j :=
    List.Nodup.getElem_inj_iff hnodup
  rwa [List.getElem_map, List.getElem_map] at hinj

/-- In a closed walk without a repeated node, the arc that ends where another one begins is the
one before it on the ring. -/
theorem Closed.target_eq_source_iff (h : m.Closed walk) (hnodup : (walk.map m.source).Nodup)
    {i j : Nat} (hi : i < walk.length) (hj : j < walk.length) :
    m.target walk[i] = m.source walk[j] ↔ j = (i + 1) % walk.length := by
  have hlt : (i + 1) % walk.length < walk.length := Nat.mod_lt _ (Nat.zero_lt_of_lt hi)
  rw [h.target_getElem hi hlt, source_getElem_inj hnodup hlt hj, eq_comm]

/-- Two nodes of a closed walk are joined by one of its arcs if and only if they are neighbours
on the ring. -/
theorem Closed.joined_iff (h : m.Closed walk) (hnodup : (walk.map m.source).Nodup) {i j : Nat}
    (hi : i < walk.length) (hj : j < walk.length) :
    (∃ b ∈ walk, m.ends b = s(m.source walk[i], m.source walk[j])) ↔
      j = (i + 1) % walk.length ∨ i = (j + 1) % walk.length := by
  constructor
  · rintro ⟨b, hb, hends⟩
    obtain ⟨k, hk, rfl⟩ := List.getElem_of_mem hb
    rcases Sym2.eq_iff.1 hends with ⟨hsource, htarget⟩ | ⟨hsource, htarget⟩
    · rw [h.target_eq_source_iff hnodup hk hj] at htarget
      exact .inl ((source_getElem_inj hnodup hk hi).1 hsource ▸ htarget)
    · rw [h.target_eq_source_iff hnodup hk hi] at htarget
      exact .inr ((source_getElem_inj hnodup hk hj).1 hsource ▸ htarget)
  · rintro (hnext | hnext)
    · refine ⟨walk[i], List.getElem_mem hi, ?_⟩
      rw [ends, (h.target_eq_source_iff hnodup hi hj).2 hnext]
    · refine ⟨walk[j], List.getElem_mem hj, ?_⟩
      rw [ends, (h.target_eq_source_iff hnodup hj hi).2 hnext, Sym2.eq_swap]

/-- The place before `k` on a ring of `n` places is the one that `k` comes after. -/
theorem succ_mod_eq_iff {n i k : Nat} (hi : i < n) (hk : k < n) :
    k = (i + 1) % n ↔ i = (k + n - 1) % n := by
  have hnext : (i + 1) % n = if i + 1 = n then 0 else i + 1 := by
    split
    · rename_i hlast
      rw [hlast, Nat.mod_self]
    · apply Nat.mod_eq_of_lt
      omega
  have hbefore : (k + n - 1) % n = if k = 0 then n - 1 else k - 1 := by
    split
    · rename_i hzero
      rw [hzero, Nat.zero_add]
      apply Nat.mod_eq_of_lt
      omega
    · rw [show k + n - 1 = k - 1 + n by omega, Nat.add_mod_right]
      apply Nat.mod_eq_of_lt
      omega
  rw [hnext, hbefore]
  split <;> split <;> omega

/-- One member of a list stands right before another when the list is closed to a ring. -/
def Precedes (walk : List α) (b a : α) : Prop :=
  ∃ k, walk[k]? = some a ∧ walk[(k + walk.length - 1) % walk.length]? = some b

theorem Precedes.mem {a b : α} (h : Precedes walk b a) : b ∈ walk ∧ a ∈ walk := by
  obtain ⟨k, ha, hb⟩ := h
  exact ⟨List.mem_of_getElem? hb, List.mem_of_getElem? ha⟩

theorem precedes_map_iff {f : α → β} {x y : β} :
    Precedes (walk.map f) y x ↔ ∃ a b, Precedes walk b a ∧ f a = x ∧ f b = y := by
  constructor
  · rintro ⟨k, hx, hy⟩
    rw [List.getElem?_map, Option.map_eq_some_iff] at hx
    rw [List.length_map, List.getElem?_map, Option.map_eq_some_iff] at hy
    obtain ⟨a, ha, rfl⟩ := hx
    obtain ⟨b, hb, rfl⟩ := hy
    exact ⟨a, b, ⟨k, ha, hb⟩, rfl, rfl⟩
  · rintro ⟨a, b, ⟨k, ha, hb⟩, rfl, rfl⟩
    refine ⟨k, ?_, ?_⟩
    · rw [List.getElem?_map, ha, Option.map_some]
    · rw [List.length_map, List.getElem?_map, hb, Option.map_some]

/-- What stands before what on a ring does not depend on where the ring begins. -/
theorem Precedes.rotate {a b : α} (h : Precedes walk b a) (n : Nat) :
    Precedes (walk.rotate n) b a := by
  obtain ⟨k, ha, hb⟩ := h
  obtain ⟨hk, -⟩ := List.getElem?_eq_some_iff.1 ha
  obtain ⟨hi, -⟩ := List.getElem?_eq_some_iff.1 hb
  have hpos : 0 < walk.length := Nat.zero_lt_of_lt hk
  have hbefore := succ_mod_eq_iff hi hk
  -- The member at place `m` goes to place `m + (walk.length - n)` of the ring.
  rw [← List.rotate_mod]
  have hn : n % walk.length < walk.length := Nat.mod_lt _ hpos
  generalize n % walk.length = n at hn
  generalize (k + walk.length - 1) % walk.length = i at hb hi hbefore
  have hcome : ∀ m, ((m + (walk.length - n)) % walk.length + n) % walk.length =
      m % walk.length := by
    intro m
    rw [Nat.mod_add_mod, show m + (walk.length - n) + n = m + walk.length by omega,
      Nat.add_mod_right]
  have hj : (i + (walk.length - n)) % walk.length < walk.length := Nat.mod_lt _ hpos
  have hj' : (k + (walk.length - n)) % walk.length < walk.length := Nat.mod_lt _ hpos
  have hnext : (k + (walk.length - n)) % walk.length =
      ((i + (walk.length - n)) % walk.length + 1) % walk.length := by
    rw [Nat.mod_add_mod, hbefore.2 rfl, Nat.mod_add_mod]
    congr 1
    omega
  refine ⟨(k + (walk.length - n)) % walk.length, ?_, ?_⟩
  · rw [List.getElem?_rotate hj', hcome, Nat.mod_eq_of_lt hk, ha]
  · rw [List.length_rotate, ← (succ_mod_eq_iff hj hj').1 hnext, List.getElem?_rotate hj, hcome,
      Nat.mod_eq_of_lt hi, hb]

theorem precedes_congr {other : List α} (h : walk ~r other) {a b : α} :
    Precedes walk b a ↔ Precedes other b a := by
  constructor
  · obtain ⟨n, rfl⟩ := h
    exact fun hbefore => hbefore.rotate n
  · obtain ⟨n, rfl⟩ := h.symm
    exact fun hbefore => hbefore.rotate n

/-- A cycle of one multigraph is read as a cycle of another: arcs are those of arcs, nodes have
other numbers, and arcs have one label if they had one before. -/
theorem inducedCycle_map_iff {n : Multigraph β σ} {f : α → β} {number : Nat → Nat}
    (hnumber : Function.Injective number) (hsource : ∀ a, n.source (f a) = number (m.source a))
    (htarget : ∀ a, n.target (f a) = number (m.target a))
    (hhas : ∀ b, n.Has b ↔ ∃ a, m.Has a ∧ f a = b) (hwalk : ∀ a ∈ walk, m.Has a)
    (hlabel : ∀ a ∈ walk, ∀ b ∈ walk, n.label (f a) = n.label (f b) ↔ m.label a = m.label b) :
    n.InducedCycle (walk.map f) ↔ m.InducedCycle walk := by
  have hsources : (walk.map f).map n.source = (walk.map m.source).map number := by
    rw [List.map_map, List.map_map]
    exact List.map_congr_left fun a _ => hsource a
  have htargets : (walk.map f).map n.target = (walk.map m.target).map number := by
    rw [List.map_map, List.map_map]
    exact List.map_congr_left fun a _ => htarget a
  have hlabels : ((walk.map f).map n.label).Nodup ↔ (walk.map m.label).Nodup := by
    rw [List.map_map, List.Nodup, List.Nodup, List.pairwise_map, List.pairwise_map]
    apply List.Pairwise.iff_of_mem
    intro a b ha hb
    exact not_congr (hlabel a ha b hb)
  have hends : ∀ a b, n.ends (f a) = n.ends (f b) ↔ m.ends a = m.ends b := by
    intro a b
    rw [ends, ends, hsource, htarget, hsource, htarget, ← Sym2.map_mk, ← Sym2.map_mk]
    exact (Sym2.map.injective hnumber).eq_iff
  have hclosed : n.Closed (walk.map f) ↔ m.Closed walk := by
    rw [Closed, Closed, hsources, htargets, ← List.map_rotate]
    exact (List.map_injective_iff.2 hnumber).eq_iff
  have hchordless : n.Chordless (walk.map f) ↔ m.Chordless walk := by
    rw [Chordless, Chordless, hsources]
    constructor
    · intro h a ha hs ht hne
      obtain ⟨c, hc, he⟩ := h (f a) ((hhas (f a)).2 ⟨a, ha, rfl⟩)
        (by rwa [hsource, List.mem_map_of_injective hnumber])
        (by rwa [htarget, List.mem_map_of_injective hnumber])
        (by rwa [hsource, htarget, hnumber.ne_iff])
      obtain ⟨b, hb, rfl⟩ := List.mem_map.1 hc
      exact ⟨b, hb, (hends b a).1 he⟩
    · intro h c hc
      obtain ⟨a, ha, rfl⟩ := (hhas c).1 hc
      rw [hsource, htarget, List.mem_map_of_injective hnumber, List.mem_map_of_injective hnumber,
        hnumber.ne_iff]
      intro hs ht hne
      obtain ⟨b, hb, he⟩ := h a ha hs ht hne
      exact ⟨f b, List.mem_map_of_mem hb, (hends b a).2 he⟩
  constructor
  · intro h
    refine ⟨?_, hwalk, hclosed.1 h.closed, ?_, hlabels.1 h.nodup_labels, ?_⟩
    · exact fun hnil => h.ne_nil (by rw [hnil, List.map_nil])
    · exact List.Nodup.of_map number (hsources ▸ h.nodup_nodes)
    · intro hlength
      exact hchordless.1 (h.chordless (by rwa [List.length_map]))
  · intro h
    refine ⟨?_, ?_, hclosed.2 h.closed, ?_, hlabels.2 h.nodup_labels, ?_⟩
    · exact fun hnil => h.ne_nil (List.map_eq_nil_iff.1 hnil)
    · intro c hc
      obtain ⟨a, ha, rfl⟩ := List.mem_map.1 hc
      exact (hhas (f a)).2 ⟨a, hwalk a ha, rfl⟩
    · rw [hsources]
      exact h.nodup_nodes.map hnumber
    · intro hlength
      rw [List.length_map] at hlength
      exact hchordless.2 (h.chordless hlength)

end Multigraph

/-- An edge joins two nodes if they are its ends, in one order or the other. -/
theorem Edge.joins_iff {e : Edge} {a b : Nat} :
    e.joins a b = true ↔ s(e.source, e.target) = s(a, b) := by
  simp only [Edge.joins, Bool.or_eq_true, Bool.and_eq_true, beq_iff_eq, Sym2.eq_iff]

end LiveIsolation
