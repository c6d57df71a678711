import LiveIsolation.Proofs.ConflictGraph.Dangers
import LiveIsolation.Proofs.Registration

/-!
# Analysis

Analysis fails on a template without statements and on nothing else, whatever has been registered
and refused before. Otherwise it marks statements and changes nothing else, and wherever names
tell conflicts apart it marks those that the conflicts of the workload endanger
(`Registry.analysis_marks_endangered`).
-/

namespace LiveIsolation

/-- A statement that is marked as a rule says and is otherwise the same. -/
def Statement.withMarks (a : Statement) (mark : Discipline → Bool) : Statement :=
  { a with validatedSnapshot := mark .snapshot, validatedReadCommitted := mark .readCommitted }

theorem Statement.mark_withMarks (a : Statement) (mark : Discipline → Bool) (d : Discipline) :
    (a.withMarks mark).mark d = a.withMarks fun e => decide (d = e) || mark e := by
  cases d with
  | snapshot => rfl
  | readCommitted => rfl

theorem Statement.withMarks_of_unmarked {a : Statement} (h : ∀ d, a.validated d = false) :
    a.withMarks (fun _ => false) = a := by
  obtain ⟨kind, relation, sql, bindings, skipped, snapshot, readCommitted⟩ := a
  obtain rfl : snapshot = false := h .snapshot
  obtain rfl : readCommitted = false := h .readCommitted
  rfl

/-- A template whose statements are marked as a rule says. -/
def Transaction.withMarks (t : Transaction) (mark : Discipline → Nat → Bool) : Transaction :=
  { t with statements := t.statements.mapIdx fun i a => a.withMarks (mark · i) }

theorem Transaction.withMarks_of_unmarked {t : Transaction}
    (h : ∀ a ∈ t.statements, ∀ d, a.validated d = false) :
    t.withMarks (fun _ _ => false) = t := by
  have hstatements : t.statements.mapIdx (fun _ a => a.withMarks fun _ => false) =
      t.statements := by
    rw [List.mapIdx_eq_iff]
    intro i
    cases ha : t.statements[i]? with
    | none => rfl
    | some a =>
        rw [Option.map_some, Statement.withMarks_of_unmarked (h a (List.mem_of_getElem? ha))]
  rw [Transaction.withMarks, hstatements]

/-- Templates whose statements are marked as a rule says. -/
def withMarks (mark : Discipline → StatementRef → Bool) (ts : List Transaction) :
    List Transaction :=
  ts.mapIdx fun k t => t.withMarks fun d i => mark d ⟨k, i⟩

section Marks

variable {mark : Discipline → StatementRef → Bool} {ts : List Transaction} {p : StatementRef}
  {d : Discipline}

/-- The reference is to a statement of the templates. -/
def Refers (ts : List Transaction) (p : StatementRef) : Prop :=
  ∃ t a, ts[p.template]? = some t ∧ t.statements[p.index]? = some a

/-- A rule, and one more mark. -/
def alsoMarked (mark : Discipline → StatementRef → Bool) (p : StatementRef) (d : Discipline) :
    Discipline → StatementRef → Bool :=
  fun e q => decide (d = e ∧ p = q) || mark e q

theorem alsoMarked_of_ne {q : StatementRef} (h : p ≠ q) (e : Discipline) :
    alsoMarked mark p d e q = mark e q := by
  rw [alsoMarked, decide_eq_false fun hq => h hq.2, Bool.false_or]

theorem alsoMarked_self (e : Discipline) :
    alsoMarked mark p d e p = (decide (d = e) || mark e p) := by
  rw [alsoMarked]
  congr 1
  exact decide_eq_decide.2 (and_iff_left rfl)

/-- Marking a statement of a template marks this one only. -/
theorem mark?_withMarks {t : Transaction} {a : Statement} {k i : Nat}
    (ha : t.statements[i]? = some a) :
    (t.withMarks fun e j => mark e ⟨k, j⟩).mark? i d =
      some (t.withMarks fun e j => alsoMarked mark ⟨k, i⟩ d e ⟨k, j⟩) := by
  rw [Transaction.mark?, Transaction.withMarks, List.getElem?_mapIdx, ha, Option.map_some,
    Option.map_some, Transaction.withMarks, Statement.mark_withMarks]
  congr 2
  symm
  rw [List.mapIdx_eq_iff]
  intro j
  rw [List.getElem?_set, List.getElem?_mapIdx, List.length_mapIdx]
  split
  · rename_i hij
    rw [← hij, if_pos (List.getElem?_eq_some_iff.1 ha).1, ha, Option.map_some]
    simp only [alsoMarked_self]
  · rename_i hij
    have hne : (⟨k, i⟩ : StatementRef) ≠ ⟨k, j⟩ := fun he => hij (congrArg StatementRef.index he)
    simp only [alsoMarked_of_ne hne]

/-- Marking a statement of some templates marks this one only. -/
theorem markOne_withMarks (h : Refers ts p) :
    DangerReport.markOne (withMarks mark ts) p d = .ok (withMarks (alsoMarked mark p d) ts) := by
  obtain ⟨t, a, ht, ha⟩ := h
  have hplace : (withMarks mark ts)[p.template]? =
      some (t.withMarks fun e j => mark e ⟨p.template, j⟩) := by
    rw [withMarks, List.getElem?_mapIdx, ht, Option.map_some]
  simp only [DangerReport.markOne, hplace, mark?_withMarks ha]
  congr 1
  symm
  rw [withMarks, List.mapIdx_eq_iff]
  intro k
  rw [List.getElem?_set, withMarks, List.getElem?_mapIdx, List.length_mapIdx]
  split
  · rename_i hk
    rw [← hk, if_pos (List.getElem?_eq_some_iff.1 ht).1, ht, Option.map_some]
  · rename_i hk
    have hne : ∀ i, p ≠ ⟨k, i⟩ := fun i he => hk (congrArg StatementRef.template he)
    simp only [alsoMarked_of_ne (hne _)]

/-- Marks whose statements exist are all set. -/
theorem markAll_withMarks (mark : Discipline → StatementRef → Bool)
    {marks : List (StatementRef × Discipline)}
    (h : ∀ m ∈ marks, Refers ts m.1) :
    DangerReport.markAll marks (withMarks mark ts) =
      (.ok (), withMarks (fun d p => decide ((p, d) ∈ marks) || mark d p) ts) := by
  induction marks generalizing mark with
  | nil => simp only [DangerReport.markAll, List.not_mem_nil, decide_false, Bool.false_or]
  | cons m rest ih =>
      obtain ⟨p, d⟩ := m
      simp only [DangerReport.markAll, markOne_withMarks (h (p, d) List.mem_cons_self),
        ih _ fun m hm => h m (List.mem_cons_of_mem _ hm)]
      congr 2
      funext e q
      rw [alsoMarked, ← Bool.or_assoc, ← Bool.decide_or, decide_eq_decide.2]
      rw [List.mem_cons, Prod.mk.injEq, or_comm, and_comm, eq_comm (a := q), eq_comm (a := e)]

theorem withMarks_of_unmarked (h : ∀ t ∈ ts, ∀ a ∈ t.statements, ∀ d, a.validated d = false) :
    withMarks (fun _ _ => false) ts = ts := by
  rw [withMarks, List.mapIdx_eq_iff]
  intro k
  cases ht : ts[k]? with
  | none => rfl
  | some t =>
      rw [Option.map_some, Transaction.withMarks_of_unmarked (h t (List.mem_of_getElem? ht))]

/-- The marks of a report are the statements that it lists for each discipline. -/
theorem mem_marks {r : DangerReport} : (p, d) ∈ r.marks ↔ p ∈ r.refs d := by
  rw [DangerReport.marks, List.mem_append, List.mem_map, List.mem_map]
  cases d with
  | snapshot =>
      constructor
      · rintro (⟨q, -, he⟩ | ⟨q, hq, he⟩)
        · cases he
        · cases he
          exact hq
      · exact fun hp => .inr ⟨p, hp, rfl⟩
  | readCommitted =>
      constructor
      · rintro (⟨q, hq, he⟩ | ⟨q, -, he⟩)
        · cases he
          exact hq
        · cases he
      · exact fun hp => .inl ⟨p, hp, rfl⟩

/-- The report of a workload speaks of its statements only. -/
theorem refers_of_mem_refs (hn : ConflictGraph.Numbered ts)
    (hp : p ∈ (ConflictGraph.build ts).dangers.refs d) : Refers ts p := by
  obtain ⟨e, he, hpair⟩ := ConflictGraph.exists_edge_of_mem_refs hp
  obtain ⟨a, b, h, -, -⟩ := (ConflictGraph.mem_build_edges hn).1 he
  rcases Sym2.mem_iff.1 hpair with rfl | rfl
  · obtain ⟨t, ht⟩ := h.source
    exact ⟨t, a, ht.template, ht.statement⟩
  · obtain ⟨t, ht⟩ := h.target
    exact ⟨t, b, ht.template, ht.statement⟩

end Marks

namespace Registry

variable {r : Registry}

/-- A report is applied without a fault, and sets the marks that it lists. -/
theorem Sound.applyTo_eq (h : r.Sound) :
    (ConflictGraph.build r.templates).dangers.applyTo r.templates =
      (.ok (), withMarks
        (fun d p => decide (p ∈ (ConflictGraph.build r.templates).dangers.refs d))
        r.templates) := by
  have hrefers : ∀ m ∈ (ConflictGraph.build r.templates).dangers.marks,
      Refers r.templates m.1 := fun m hm => refers_of_mem_refs h.numbered (mem_marks.1 hm)
  have hall := markAll_withMarks (fun _ _ => false) hrefers
  rw [withMarks_of_unmarked h.unmarked] at hall
  simp only [mem_marks, Bool.or_false] at hall
  exact hall

/-- What analysis answers. -/
theorem Sound.analyze_eq (h : r.Sound) :
    (∃ t ∈ r.templates, t.statements = [] ∧ r.analyze = .error (.emptyTransaction t.name)) ∨
      ((∀ t ∈ r.templates, t.statements ≠ []) ∧ ∃ w, r.analyze = .ok w ∧
        w.templates = withMarks
          (fun d p => decide (p ∈ (ConflictGraph.build r.templates).dangers.refs d))
          r.templates) := by
  rw [analyze]
  cases hfind : r.templates.find? (·.statements.isEmpty) with
  | some t =>
      have hempty : t.statements.isEmpty = true :=
        List.find?_some (p := fun t : Transaction => t.statements.isEmpty) hfind
      exact .inl ⟨t, List.mem_of_find?_eq_some hfind, List.isEmpty_iff.1 hempty, rfl⟩
  | none =>
      refine .inr ⟨?_, ?_⟩
      · intro t ht hempty
        exact List.find?_eq_none.1 hfind t ht (List.isEmpty_iff.2 hempty)
      · simp only [h.applyTo_eq]
        exact ⟨_, rfl, rfl⟩

/-- Whatever has been registered and refused: analysis fails with a registration fault or not at
all, and fails exactly if some template has no statement. Otherwise the templates come out as they
were registered but for their marks, and if different conflicts have different names, the marks of
each discipline are on the statements that it has to validate. -/
theorem analysis_marks_endangered (calls : List RegistryCall) :
    (∀ f, (run calls).analyze = .error f → f.cls = .registration) ∧
    ((∃ f, (run calls).analyze = .error f) ↔ ∃ t ∈ (run calls).templates, t.statements = []) ∧
    (ConflictGraph.NamesApart (run calls).templates → ∀ w, (run calls).analyze = .ok w →
      ∃ mark, w.templates = withMarks mark (run calls).templates ∧
        ∀ d p, mark d p = true ↔ ConflictGraph.Endangered (run calls).templates d p) := by
  have hsound := sound_run calls
  rcases hsound.analyze_eq with ⟨t, ht, hempty, herror⟩ | ⟨hfull, w, hw, htemplates⟩
  · rw [herror]
    refine ⟨?_, ?_, ?_⟩
    · intro f hf
      rw [← Except.error.inj hf]
      rfl
    · exact iff_of_true ⟨_, rfl⟩ ⟨t, ht, hempty⟩
    · intro _ w hw
      cases hw
  · rw [hw]
    refine ⟨?_, ?_, ?_⟩
    · intro f hf
      cases hf
    · refine iff_of_false ?_ ?_
      · rintro ⟨f, hf⟩
        cases hf
      · rintro ⟨t, ht, hempty⟩
        exact hfull t ht hempty
    · intro hapart w' hw'
      obtain rfl := Except.ok.inj hw'
      refine ⟨_, htemplates, ?_⟩
      intro d p
      rw [decide_eq_true_iff]
      exact ConflictGraph.mem_refs_build_iff hsound.numbered hapart

/-- Two transactions that each read what the other one writes, and one that only reads. The second
registration of `a` and the statement for `d` are refused. -/
def crossed : List RegistryCall :=
  [.transaction "a", .transaction "a", .transaction "b", .transaction "c",
    .statement SqlRule.identity "a" { kind := .read, relation := "x" },
    .statement SqlRule.identity "b" { kind := .read, relation := "y" },
    .statement SqlRule.identity "d" { kind := .write, relation := "x" },
    .statement SqlRule.identity "a" { kind := .write, relation := "y" },
    .statement SqlRule.identity "c" { kind := .scan, relation := "x" },
    .statement SqlRule.identity "b" { kind := .write, relation := "x" }]

/-- The read of `a` and the write that it comes before are endangered under snapshot isolation,
the scan is under no discipline. -/
theorem crossed_marks_endangered :
    ConflictGraph.NamesApart (run crossed).templates ∧
      (∃ w, (run crossed).analyze = .ok w) ∧
      ConflictGraph.Endangered (run crossed).templates .snapshot ⟨0, 0⟩ ∧
      ConflictGraph.Endangered (run crossed).templates .snapshot ⟨1, 1⟩ ∧
      ∀ d, ¬ConflictGraph.Endangered (run crossed).templates d ⟨2, 0⟩ := by
  have hapart : ConflictGraph.NamesApart (run crossed).templates := by decide
  obtain ⟨w, hw, hmarked⟩ : ∃ w, (run crossed).analyze = .ok w ∧
      w.templates.map (fun t => t.statements.map fun a => (a.validatedSnapshot,
        a.validatedReadCommitted)) =
      [[(true, true), (true, true)], [(true, true), (true, true)], [(false, false)]] :=
    ⟨_, rfl, by decide⟩
  obtain ⟨-, -, hmarks⟩ := analysis_marks_endangered crossed
  obtain ⟨mark, htemplates, hmark⟩ := hmarks hapart w hw
  rw [htemplates] at hmarked
  change [[(mark .snapshot ⟨0, 0⟩, mark .readCommitted ⟨0, 0⟩),
      (mark .snapshot ⟨0, 1⟩, mark .readCommitted ⟨0, 1⟩)],
    [(mark .snapshot ⟨1, 0⟩, mark .readCommitted ⟨1, 0⟩),
      (mark .snapshot ⟨1, 1⟩, mark .readCommitted ⟨1, 1⟩)],
    [(mark .snapshot ⟨2, 0⟩, mark .readCommitted ⟨2, 0⟩)]] = _ at hmarked
  simp only [List.cons.injEq, Prod.mk.injEq, and_true] at hmarked
  obtain ⟨⟨⟨hread, -⟩, -⟩, ⟨-, ⟨hwrite, -⟩⟩, ⟨hscan, hscan'⟩⟩ := hmarked
  refine ⟨hapart, ⟨w, hw⟩, (hmark _ _).1 hread, (hmark _ _).1 hwrite, ?_⟩
  intro d hendangered
  have htrue := (hmark d _).2 hendangered
  cases d with
  | snapshot => exact Bool.noConfusion (hscan.symm.trans htrue)
  | readCommitted => exact Bool.noConfusion (hscan'.symm.trans htrue)

end Registry

end LiveIsolation
