import LiveIsolation.Proofs.ConflictGraph.Reordering
import LiveIsolation.Proofs.Ordered

/-!
# The edges of a workload

Which edges the graph of a workload has, said by its statements alone (`Undominated`). The builder
looks for a dominating conflict among the edges that it has already made, and removes edges by
name. What it leaves are both directions of each conflict between statements of two templates,
except where the reading template also writes by the same columns, and no edge stands there twice
(`build_edges_undominated`).
-/

namespace LiveIsolation

namespace Transaction

/-- The template has a write on the relation of a statement that analysis does not skip and that
names the same columns in its WHERE clause. -/
def WritesAlike (t : Transaction) (s : Statement) : Prop :=
  ∃ w ∈ t.statements, w.kind.isWrite = true ∧ w.skipped = false ∧ w.relation = s.relation ∧
    ∀ column, (∃ b ∈ w.bindings, b.column = column) ↔ ∃ b ∈ s.bindings, b.column = column

end Transaction

namespace ConflictGraph

theorem sameRow_iff {a b : Statement} :
    sameRow a b = true ↔ a.relation = b.relation ∧
      ∀ column, (∃ x ∈ a.bindings, x.column = column) ↔ ∃ x ∈ b.bindings, x.column = column := by
  rw [sameRow, Bool.and_eq_true, beq_iff_eq, beq_iff_eq, Statement.whereColumns,
    Statement.whereColumns, Ordered.ofList_eq_iff]
  simp only [List.mem_map]

theorem covers_iff_writesAlike {t : Transaction} {s : Statement} :
    t.Covers s ↔ t.WritesAlike s := by
  simp only [Transaction.Covers, Transaction.WritesAlike, sameRow_iff]

/-- A write always takes part in conflicts, a read unless its template writes alike. -/
theorem exposes_iff {t : Transaction} {s : Statement} :
    t.Exposes s ↔ s.skipped = false ∧ (s.kind.isWrite = true ∨ ¬t.WritesAlike s) := by
  rw [Transaction.Exposes, covers_iff_writesAlike, Classical.not_and_iff_not_or_not,
    Bool.not_eq_false]

theorem kindOf_eq_writeRead_iff {a b : Statement} :
    kindOf a b = .writeRead ↔ a.kind.isWrite = true ∧ b.kind.isWrite = false := by
  rw [kindOf]
  cases a.kind.isWrite <;> cases b.kind.isWrite <;> simp

section Build

variable {ts : List Transaction} {p q : StatementRef} {t u : Transaction} {a b : Statement}
  {e : Edge}

/-- Two statements on one relation, neither of them skipped, the first in an earlier template than
the second. -/
structure Pairing (ts : List Transaction) (p q : StatementRef) (t u : Transaction)
    (a b : Statement) : Prop where
  before : p.template < q.template
  earlier : ts[p.template]? = some t
  later : ts[q.template]? = some u
  first : t.statements[p.index]? = some a
  second : u.statements[q.index]? = some b
  counted : a.skipped = false ∧ b.skipped = false
  relation : a.relation = b.relation

/-- An edge from the first statement to the second, and its mirror of the same name. -/
def bothWays (t u : Transaction) (p q : StatementRef) (there back : EdgeKind) : List Edge :=
  let name := conflictName t.name u.name p.index q.index
  [⟨p.template, q.template, there, name, p.index, q.index⟩,
    ⟨q.template, p.template, back, name, q.index, p.index⟩]

/-- The edges that a workload is to have. -/
inductive Undominated (ts : List Transaction) (e : Edge) : Prop where
  | bothWrite {p q : StatementRef} {t u : Transaction} {a b : Statement}
    (h : Pairing ts p q t u a b) (ha : a.kind.isWrite = true) (hb : b.kind.isWrite = true)
    (he : e ∈ bothWays t u p q .writeWrite .writeWrite) : Undominated ts e
  | firstReads {p q : StatementRef} {t u : Transaction} {a b : Statement}
    (h : Pairing ts p q t u a b) (ha : a.kind.isWrite = false) (hb : b.kind.isWrite = true)
    (hfree : ¬t.WritesAlike a) (he : e ∈ bothWays t u p q .readWrite .writeRead) :
    Undominated ts e
  | secondReads {p q : StatementRef} {t u : Transaction} {a b : Statement}
    (h : Pairing ts p q t u a b) (ha : a.kind.isWrite = true) (hb : b.kind.isWrite = false)
    (hfree : ¬u.WritesAlike b) (he : e ∈ bothWays t u p q .writeRead .readWrite) :
    Undominated ts e

theorem Conflict.symm (h : Conflict ts p q a b) : Conflict ts q p b a :=
  ⟨h.apart.symm, h.target, h.source, h.relation.symm, h.writes.symm⟩

theorem Pairing.conflict (h : Pairing ts p q t u a b) (hea : t.Exposes a) (heb : u.Exposes b)
    (hwrites : a.kind.isWrite = true ∨ b.kind.isWrite = true) : Conflict ts p q a b :=
  ⟨Nat.ne_of_lt h.before, ⟨t, h.earlier, h.first, hea⟩, ⟨u, h.later, h.second, heb⟩, h.relation,
    hwrites⟩

/-- The name of a pair, whichever of its statements is named first. -/
theorem Pairing.nameBetween_eq (h : Pairing ts p q t u a b) :
    nameBetween ts p q = conflictName t.name u.name p.index q.index ∧
      nameBetween ts q p = conflictName t.name u.name p.index q.index := by
  rw [nameBetween, nameBetween, if_pos h.before, if_neg (Nat.lt_asymm h.before),
    templateName_eq h.earlier, templateName_eq h.later]
  exact ⟨rfl, rfl⟩

/-- The statements of a conflict, in the order of their templates. -/
theorem Conflict.pairing (h : Conflict ts p q a b) (hlt : p.template < q.template) :
    ∃ t u, Pairing ts p q t u a b ∧ t.Exposes a ∧ u.Exposes b := by
  obtain ⟨t, ht⟩ := h.source
  obtain ⟨u, hu⟩ := h.target
  exact ⟨t, u, ⟨hlt, ht.template, hu.template, ht.statement, hu.statement,
    ⟨ht.exposes.1, hu.exposes.1⟩, h.relation⟩, ht.exposes, hu.exposes⟩

/-- The edges of a workload, with the statements of each in the order of their templates. -/
theorem mem_build_edges_iff_pairing (hn : Numbered ts) :
    e ∈ (build ts).edges ↔ ∃ p q t u a b, Pairing ts p q t u a b ∧ t.Exposes a ∧ u.Exposes b ∧
      (a.kind.isWrite = true ∨ b.kind.isWrite = true) ∧
      e ∈ bothWays t u p q (kindOf a b) (kindOf b a) := by
  rw [mem_build_edges hn]
  constructor
  · rintro ⟨a, b, h, hkind, hname⟩
    rcases Nat.lt_or_gt_of_ne h.apart with hlt | hlt
    · obtain ⟨t, u, hpair, hea, heb⟩ := h.pairing hlt
      refine ⟨_, _, t, u, a, b, hpair, hea, heb, h.writes, ?_⟩
      rw [bothWays, ← hkind, ← hpair.nameBetween_eq.1, ← hname]
      exact List.mem_cons_self
    · obtain ⟨t, u, hpair, hea, heb⟩ := h.symm.pairing hlt
      refine ⟨_, _, t, u, b, a, hpair, hea, heb, h.symm.writes, ?_⟩
      rw [bothWays, ← hkind, ← hpair.nameBetween_eq.2, ← hname]
      exact List.mem_cons_of_mem _ List.mem_cons_self
  · rintro ⟨p, q, t, u, a, b, hpair, hea, heb, hwrites, he⟩
    have h := hpair.conflict hea heb hwrites
    simp only [bothWays, List.mem_cons, List.not_mem_nil, or_false] at he
    rcases he with rfl | rfl
    · exact ⟨a, b, h, rfl, hpair.nameBetween_eq.1.symm⟩
    · exact ⟨b, a, h.symm, rfl, hpair.nameBetween_eq.2.symm⟩

/-- The three cases of the edges that a workload is to have, in one. -/
theorem undominated_iff :
    Undominated ts e ↔ ∃ p q t u a b, Pairing ts p q t u a b ∧ t.Exposes a ∧ u.Exposes b ∧
      (a.kind.isWrite = true ∨ b.kind.isWrite = true) ∧
      e ∈ bothWays t u p q (kindOf a b) (kindOf b a) := by
  constructor
  · intro h
    cases h with
    | bothWrite h ha hb he =>
        refine ⟨_, _, _, _, _, _, h, exposes_iff.2 ⟨h.counted.1, .inl ha⟩,
          exposes_iff.2 ⟨h.counted.2, .inl hb⟩, .inl ha, ?_⟩
        rwa [kindOf_eq_writeWrite_iff.2 ⟨ha, hb⟩, kindOf_eq_writeWrite_iff.2 ⟨hb, ha⟩]
    | firstReads h ha hb hfree he =>
        refine ⟨_, _, _, _, _, _, h, exposes_iff.2 ⟨h.counted.1, .inr hfree⟩,
          exposes_iff.2 ⟨h.counted.2, .inl hb⟩, .inr hb, ?_⟩
        rwa [kindOf_eq_readWrite_iff.2 ha, kindOf_eq_writeRead_iff.2 ⟨hb, ha⟩]
    | secondReads h ha hb hfree he =>
        refine ⟨_, _, _, _, _, _, h, exposes_iff.2 ⟨h.counted.1, .inl ha⟩,
          exposes_iff.2 ⟨h.counted.2, .inr hfree⟩, .inl ha, ?_⟩
        rwa [kindOf_eq_writeRead_iff.2 ⟨ha, hb⟩, kindOf_eq_readWrite_iff.2 hb]
  · rintro ⟨p, q, t, u, a, b, hpair, hea, heb, hwrites, he⟩
    rw [exposes_iff] at hea heb
    cases ha : a.kind.isWrite with
    | true =>
        cases hb : b.kind.isWrite with
        | true =>
            rw [kindOf_eq_writeWrite_iff.2 ⟨ha, hb⟩, kindOf_eq_writeWrite_iff.2 ⟨hb, ha⟩] at he
            exact .bothWrite hpair ha hb he
        | false =>
            rw [kindOf_eq_writeRead_iff.2 ⟨ha, hb⟩, kindOf_eq_readWrite_iff.2 hb] at he
            exact .secondReads hpair ha hb (heb.2.resolve_left (by simp [hb])) he
    | false =>
        have hb : b.kind.isWrite = true := hwrites.resolve_left (by simp [ha])
        rw [kindOf_eq_readWrite_iff.2 ha, kindOf_eq_writeRead_iff.2 ⟨hb, ha⟩] at he
        exact .firstReads hpair ha hb (hea.2.resolve_left (by simp [ha])) he

/-- The graph of a workload has the undominated edges and no others, each of them once. -/
theorem build_edges_undominated (hn : Numbered ts) :
    (build ts).edges.Nodup ∧ ∀ e, e ∈ (build ts).edges ↔ Undominated ts e :=
  ⟨nodup_edges_build hn, fun _ => (mem_build_edges_iff_pairing hn).trans undominated_iff.symm⟩

end Build

/-- A transfer reads accounts by two columns, by which it also writes, and by their owner; a payment
writes accounts. -/
def transfers : List Transaction :=
  [⟨0, "transfer", [{ kind := .read, relation := "account", bindings := [⟨0, "id"⟩, ⟨1, "bank"⟩] },
      { kind := .read, relation := "account", bindings := [⟨0, "owner"⟩] },
      { kind := .write, relation := "account", bindings := [⟨1, "bank"⟩, ⟨0, "id"⟩] },
      { kind := .write, relation := "account", bindings := [⟨0, "owner"⟩], skipped := true }]⟩,
    ⟨1, "payment", [{ kind := .write, relation := "account", bindings := [⟨0, "id"⟩] },
      { kind := .write, relation := "ledger" }]⟩]

theorem numbered_transfers : Numbered transfers := by
  intro k t ht
  rcases k with _ | _ | k
  · rw [← Option.some.inj ht]
  · rw [← Option.some.inj ht]
  · cases ht

/-- The read by the owner stays, since the write by the owner is skipped. The other read is
dominated by a write that names the columns in another order. -/
theorem transfers_undominated :
    Numbered transfers ∧ (build transfers).edges.Nodup ∧
      Undominated transfers ⟨0, 1, .readWrite, "transfer-payment-1-0", 1, 0⟩ ∧
      Undominated transfers ⟨1, 0, .writeRead, "transfer-payment-1-0", 0, 1⟩ ∧
      ¬Undominated transfers ⟨0, 1, .readWrite, "transfer-payment-0-0", 0, 0⟩ := by
  obtain ⟨hnodup, hmem⟩ := build_edges_undominated numbered_transfers
  refine ⟨numbered_transfers, hnodup, (hmem _).1 ?_, (hmem _).1 ?_,
    fun h => absurd ((hmem _).2 h) ?_⟩
  · decide
  · decide
  · decide

end ConflictGraph

end LiveIsolation
