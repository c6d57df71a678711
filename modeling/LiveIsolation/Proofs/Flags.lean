import LiveIsolation.Proofs.Analysis
import LiveIsolation.Proofs.ConflictGraph.Growth
import LiveIsolation.Proofs.ConflictGraph.Reordering

/-!
# Flags of different workloads

What analysis flags in one workload and in another. A transaction that is registered after the
others takes no flag from them (`Registry.later_transaction_keeps_flags`): chords and dominated
reads can make a cycle or an edge go, but those of the old transactions depend on the old
transactions only. And the order of registration makes no difference where names tell conflicts
apart (`Registry.order_keeps_flags`).
-/

namespace LiveIsolation

/-- Analysis flagged a statement of a transaction. -/
def Workload.Flags (w : Workload) (d : Discipline) (name : String) (i : Nat) : Prop :=
  ∃ t ∈ w.templates, t.name = name ∧ ∃ a, t.statements[i]? = some a ∧ a.validated d = true

instance (w : Workload) (d : Discipline) (name : String) (i : Nat) :
    Decidable (w.Flags d name i) :=
  inferInstanceAs (Decidable (∃ t ∈ w.templates, t.name = name ∧
    ∃ a ∈ t.statements[i]?, a.validated d = true))

theorem Statement.validated_withMarks (a : Statement) (mark : Discipline → Bool) (d : Discipline) :
    (a.withMarks mark).validated d = mark d := by
  cases d with
  | snapshot => rfl
  | readCommitted => rfl

namespace Registry

open ConflictGraph

variable {r s : Registry} {w : Workload} {d : Discipline} {name : String} {i : Nat}

/-- The flags are the statements of the report. -/
theorem Sound.flags_iff (h : r.Sound) (hw : r.analyze = .ok w) :
    w.Flags d name i ↔ ∃ k t, r.templates[k]? = some t ∧ t.name = name ∧
      ⟨k, i⟩ ∈ (build r.templates).dangers.refs d := by
  have htemplates : w.templates = withMarks
      (fun d p => decide (p ∈ (build r.templates).dangers.refs d)) r.templates := by
    obtain ⟨-, hgraph, hreport, happly⟩ := analyze_eq_ok hw
    rw [hreport, hgraph, h.applyTo_eq] at happly
    exact (Prod.mk.inj happly).2.symm
  rw [Workload.Flags, htemplates]
  constructor
  · rintro ⟨u, hu, rfl, a, ha, hflag⟩
    obtain ⟨k, hk⟩ := List.mem_iff_getElem?.1 hu
    rw [withMarks, List.getElem?_mapIdx, Option.map_eq_some_iff] at hk
    obtain ⟨t, ht, rfl⟩ := hk
    rw [Transaction.withMarks, List.getElem?_mapIdx, Option.map_eq_some_iff] at ha
    obtain ⟨a, -, rfl⟩ := ha
    rw [Statement.validated_withMarks, decide_eq_true_iff] at hflag
    exact ⟨k, t, ht, rfl, hflag⟩
  · rintro ⟨k, t, ht, rfl, hmem⟩
    obtain ⟨t', a, ht', ha⟩ := refers_of_mem_refs h.numbered hmem
    obtain rfl : t = t' := Option.some.inj (ht.symm.trans ht')
    refine ⟨t.withMarks fun d i => decide (⟨k, i⟩ ∈ (build r.templates).dangers.refs d), ?_, rfl,
      a.withMarks fun d => decide (⟨k, i⟩ ∈ (build r.templates).dangers.refs d), ?_, ?_⟩
    · apply List.mem_of_getElem? (i := k)
      rw [withMarks, List.getElem?_mapIdx, ht, Option.map_some]
    · rw [Transaction.withMarks, List.getElem?_mapIdx, ha, Option.map_some]
    · rw [Statement.validated_withMarks]
      exact decide_eq_true hmem

/-- Analysis succeeds unless a template has no statement. -/
theorem Sound.exists_workload (h : r.Sound) (hfull : ∀ t ∈ r.templates, t.statements ≠ []) :
    ∃ w, r.analyze = .ok w := by
  rcases h.analyze_eq with ⟨t, ht, hempty, -⟩ | ⟨-, w, hw, -⟩
  · exact absurd hempty (hfull t ht)
  · exact ⟨w, hw⟩

section Later

variable {ts : List Transaction} {t : Transaction}

/-- The calls that register a transaction with its statements. -/
def joining (name : String) (statements : List (SqlRule × StatementSpec)) : List RegistryCall :=
  .transaction name :: statements.map fun x => .statement x.1 name x.2

/-- A statement of the last transaction changes this one only. -/
theorem Sound.take_statement (h : r.Sound) (hr : r.templates = ts ++ [t]) (rule : SqlRule)
    (spec : StatementSpec) :
    ∃ u, u.name = t.name ∧ (r.take (.statement rule t.name spec)).templates = ts ++ [u] := by
  rw [Registry.take]
  rcases hadd : r.addStatement rule t.name spec with ⟨f | place, s⟩
  · rw [addStatement_eq_error hadd]
    exact ⟨t, rfl, hr⟩
  · obtain ⟨found, sql, hfound, -, rfl⟩ := addStatement_eq_ok hadd
    obtain ⟨hplace, hname⟩ := h.of_find? hfound
    have hlast : r.templates[ts.length]? = some t := by rw [hr, List.getElem?_concat_length]
    have hnames : found.id = ts.length := by
      have hat : ∀ {k : Nat} {u : Transaction}, r.templates[k]? = some u →
          (r.templates.map Transaction.name)[k]? = some u.name := by
        intro k u hu
        rw [List.getElem?_map, hu, Option.map_some]
      have hlt := (List.getElem?_eq_some_iff.1 (hat hplace)).1
      apply (List.getElem?_inj hlt h.names_nodup).1
      rw [hat hplace, hat hlast, hname]
    refine ⟨{ found with statements := found.statements ++ [{ spec with sql }] }, hname, ?_⟩
    change r.templates.set found.id _ = _
    rw [hr, hnames, List.set_append_right _ _ (Nat.le_refl _), Nat.sub_self]
    rfl

theorem Sound.foldl_statements (h : r.Sound) (hr : r.templates = ts ++ [t])
    (statements : List (SqlRule × StatementSpec)) :
    ∃ u, u.name = t.name ∧ ((statements.map fun x => RegistryCall.statement x.1 t.name x.2).foldl
      Registry.take r).templates = ts ++ [u] := by
  induction statements generalizing r t with
  | nil => exact ⟨t, rfl, hr⟩
  | cons x rest ih =>
      obtain ⟨u, hname, hu⟩ := h.take_statement hr x.1 x.2
      rw [List.map_cons, List.foldl_cons, ← hname]
      rw [← hname] at hu
      exact ih (h.take _) hu

/-- A transaction that is registered after others stands behind them. -/
theorem Sound.templates_joining (h : r.Sound) (hname : r.addTransaction name = (.ok i, s))
    (statements : List (SqlRule × StatementSpec)) :
    ∃ t, t.name = name ∧
      ((joining name statements).foldl Registry.take r).templates = r.templates ++ [t] := by
  have htake : r.take (.transaction name) = s := by rw [Registry.take, hname]
  have hsound := h.take (.transaction name)
  rw [htake] at hsound
  obtain ⟨-, -, -, hs⟩ := addTransaction_eq_ok.1 hname
  rw [joining, List.foldl_cons, htake]
  exact hsound.foldl_statements (t := { id := r.templates.length, name }) (by rw [hs]) statements

/-- A transaction that is registered after the others, with whatever statements, takes no flag
from them. -/
theorem later_transaction_keeps_flags (calls : List RegistryCall) (name : String)
    (statements : List (SqlRule × StatementSpec))
    (hfull : ∀ t ∈ (run calls).templates, t.statements ≠ [])
    (haccepted : ∃ k, ((run calls).addTransaction name).1 = .ok k)
    (hjoined : ∀ t ∈ (run (calls ++ joining name statements)).templates, t.name = name →
      t.statements ≠ []) :
    ∃ w later, (run calls).analyze = .ok w ∧
      (run (calls ++ joining name statements)).analyze = .ok later ∧
      ∀ d transaction i, w.Flags d transaction i → later.Flags d transaction i := by
  have hsound := sound_run calls
  have hsound' := sound_run (calls ++ joining name statements)
  obtain ⟨k, hk⟩ := haccepted
  obtain ⟨t, hname, hlater⟩ := hsound.templates_joining (Prod.ext hk rfl) statements
  have hrun :
      (run (calls ++ joining name statements)).templates = (run calls).templates ++ [t] := by
    rw [← hlater, run, List.foldl_append]
    rfl
  obtain ⟨w, hw⟩ := hsound.exists_workload hfull
  obtain ⟨later, hlater⟩ := hsound'.exists_workload (by
    intro u hu
    rw [hrun, List.mem_append, List.mem_singleton] at hu
    rcases hu with hu | rfl
    · exact hfull u hu
    · exact hjoined u (by rw [hrun]; exact List.mem_concat_self) hname)
  refine ⟨w, later, hw, hlater, ?_⟩
  intro d transaction i hflag
  obtain ⟨k, u, hu, htransaction, hmem⟩ := (hsound.flags_iff hw).1 hflag
  have hnumbered := hsound'.numbered
  rw [hrun] at hnumbered
  obtain ⟨place, hgrow⟩ := growth_build hnumbered
  refine (hsound'.flags_iff hlater).2 ⟨k, u, ?_, htransaction, ?_⟩
  · rw [hrun, List.getElem?_append_left (List.getElem?_eq_some_iff.1 hu).1, hu]
  · rw [hrun]
    exact hgrow.refs_subset (inside_build hsound.numbered) (inside_build hnumbered) hmem

/-- A transaction that writes what `a` and `b` read, which reads nothing itself, leaves the flag on
the read of `a`. Its statement on a relation without a name is refused. -/
theorem crossed_later_keeps_flags :
    (∀ t ∈ (run crossed).templates, t.statements ≠ []) ∧
      (∃ k, ((run crossed).addTransaction "d").1 = .ok k) ∧
      ∃ w later, (run crossed).analyze = .ok w ∧
        (run (crossed ++ joining "d" [(SqlRule.identity, { kind := .write, relation := "x" }),
          (SqlRule.identity, { kind := .write, relation := " " }),
          (SqlRule.identity, { kind := .write, relation := "y" })])).analyze = .ok later ∧
        w.Flags .snapshot "a" 0 ∧ later.Flags .snapshot "a" 0 ∧ ¬w.Flags .snapshot "d" 0 := by
  have hfull : ∀ t ∈ (run crossed).templates, t.statements ≠ [] := by decide
  have haccepted : ∃ k, ((run crossed).addTransaction "d").1 = .ok k := ⟨_, rfl⟩
  obtain ⟨w, later, hw, hlater, hflags⟩ := later_transaction_keeps_flags crossed "d"
    [(SqlRule.identity, { kind := .write, relation := "x" }),
      (SqlRule.identity, { kind := .write, relation := " " }),
      (SqlRule.identity, { kind := .write, relation := "y" })] hfull haccepted (by decide)
  obtain ⟨w', hw', hread, hnone⟩ : ∃ w', (run crossed).analyze = .ok w' ∧
      w'.Flags .snapshot "a" 0 ∧ ¬w'.Flags .snapshot "d" 0 := ⟨_, rfl, by decide, by decide⟩
  obtain rfl := Except.ok.inj (hw.symm.trans hw')
  exact ⟨hfull, haccepted, w, later, hw, hlater, hread, hflags _ _ _ hread, hnone⟩

end Later

section Order

variable {number : Equiv.Perm Nat}

/-- What is flagged in one order of registration is flagged in another. -/
theorem Sound.flags_reordered (hr : r.Sound) (hs : s.Sound) (ha : NamesApart r.templates)
    (hb : NamesApart s.templates) (h : Reordered r.templates s.templates number) {other : Workload}
    (hw : r.analyze = .ok w) (hother : s.analyze = .ok other) (hflag : w.Flags d name i) :
    other.Flags d name i := by
  obtain ⟨k, t, ht, rfl, hmem⟩ := (hr.flags_iff hw).1 hflag
  obtain ⟨u, hu, hname, -⟩ := h.template ht
  refine (hs.flags_iff hother).2 ⟨number k, u, hu, hname, ?_⟩
  rw [mem_refs_build_iff hs.numbered hb]
  exact h.endangered ((mem_refs_build_iff hr.numbered ha).1 hmem)

/-- The same transactions, registered in two orders in both of which different conflicts have
different names, get the same flags, and their graphs have equally many cycles. -/
theorem order_keeps_flags (calls others : List RegistryCall)
    (hsame : ((run calls).templates.map Transaction.content).Perm
      ((run others).templates.map Transaction.content))
    (ha : NamesApart (run calls).templates) (hb : NamesApart (run others).templates)
    {w : Workload} (hw : (run calls).analyze = .ok w) :
    ∃ other, (run others).analyze = .ok other ∧
      (∀ d name i, w.Flags d name i ↔ other.Flags d name i) ∧
      w.report.cycles.length = other.report.cycles.length := by
  have hr := sound_run calls
  have hs := sound_run others
  obtain ⟨number, h⟩ := exists_reordered hsame
  obtain ⟨hfull, hgraph, hreport, -⟩ := analyze_eq_ok hw
  obtain ⟨other, hother⟩ := hs.exists_workload (by
    intro u hu
    obtain ⟨k, hk⟩ := List.mem_iff_getElem?.1 hu
    obtain ⟨t, ht, -, hstatements⟩ := h.symm.template hk
    rw [← hstatements]
    exact hfull t (List.mem_of_getElem? ht))
  obtain ⟨-, hgraph', hreport', -⟩ := analyze_eq_ok hother
  refine ⟨other, hother, ?_, ?_⟩
  · intro d name i
    constructor
    · exact hr.flags_reordered hs ha hb h hw hother
    · exact hs.flags_reordered hr hb ha h.symm hother hw
  · rw [hreport, hgraph, hreport', hgraph']
    exact Nat.le_antisymm (h.length_cycles_le hr.numbered hs.numbered ha hb)
      (h.symm.length_cycles_le hs.numbered hr.numbered hb ha)

/-- The transactions of `crossed` from the last to the first. -/
def uncrossed : List RegistryCall :=
  joining "c" [(SqlRule.identity, { kind := .scan, relation := "x" })] ++
    joining "b" [(SqlRule.identity, { kind := .read, relation := "y" }),
      (SqlRule.identity, { kind := .write, relation := "x" })] ++
    joining "a" [(SqlRule.identity, { kind := .read, relation := "x" }),
      (SqlRule.identity, { kind := .write, relation := "y" })]

/-- The read of `a` is flagged in both orders. -/
theorem crossed_order_keeps_flags :
    ((run crossed).templates.map Transaction.content).Perm
        ((run uncrossed).templates.map Transaction.content) ∧
      NamesApart (run crossed).templates ∧ NamesApart (run uncrossed).templates ∧
      ∃ w other, (run crossed).analyze = .ok w ∧ (run uncrossed).analyze = .ok other ∧
        other.Flags .snapshot "a" 0 ∧ w.report.cycles.length = other.report.cycles.length := by
  have hsame : ((run crossed).templates.map Transaction.content).Perm
      ((run uncrossed).templates.map Transaction.content) := by decide
  have ha : NamesApart (run crossed).templates := by decide
  have hb : NamesApart (run uncrossed).templates := by decide
  obtain ⟨w, hw, hread⟩ : ∃ w, (run crossed).analyze = .ok w ∧ w.Flags .snapshot "a" 0 :=
    ⟨_, rfl, by decide⟩
  obtain ⟨other, hother, hflags, hcycles⟩ :=
    order_keeps_flags crossed uncrossed hsame ha hb hw
  exact ⟨hsame, ha, hb, w, other, hw, hother, (hflags _ _ _).1 hread, hcycles⟩

end Order

end Registry

end LiveIsolation
