import LiveIsolation.Proofs.Analysis
import LiveIsolation.Proofs.Engine.Transactions

/-!
# Read committed validation covers snapshot validation

A danger for snapshot isolation is one for read committed too, so a statement that the former has
to validate is validated under the latter. The two lists of obligations leave out reads on their
own: a read may be covered by a write in one list and not in the other. But a read that is left out
stands for a write of its row, and so the plan for read committed asks for every row of the plan
for snapshot isolation, with a kind at least as strong (`Engine.plans_cover`).
-/

namespace LiveIsolation

/-- Every row that the other plan asks for is asked for with a kind at least as strong. -/
def LockPlan.Covers (plan other : LockPlan) : Prop :=
  ∀ q ∈ other, ∃ r ∈ plan, r.place = q.place ∧ r.kind.max q.kind = r.kind

section Analysis

variable {g : ConflictGraph} {p : StatementRef}

/-- A statement that snapshot isolation has to validate is one for read committed too. -/
theorem ConflictGraph.readCommitted_of_snapshot (hp : p ∈ g.dangers.refs .snapshot) :
    p ∈ g.dangers.refs .readCommitted := by
  obtain ⟨c, hc, hp⟩ := mem_refs_dangers.1 hp
  obtain ⟨e, he, hdanger, hp⟩ := Cycle.mem_refs.1 hp
  exact mem_refs_dangers.2 ⟨c, hc, Cycle.mem_refs.2 ⟨e, he, hdanger.1, hp⟩⟩

/-- Analysis marks no statement for snapshot isolation alone. -/
theorem Registry.validated_of_analyze {calls : List RegistryCall} {workload : Workload}
    (h : (Registry.run calls).analyze = .ok workload) :
    ∀ t ∈ workload.templates, ∀ s ∈ t.statements, s.validatedSnapshot = true →
      s.validatedReadCommitted = true := by
  rcases (sound_run calls).analyze_eq with ⟨t, -, -, herror⟩ | ⟨-, w, hw, htemplates⟩
  · rw [herror] at h
    cases h
  · obtain rfl : w = workload := Except.ok.inj (hw.symm.trans h)
    intro t ht s hs hmarked
    rw [htemplates] at ht
    obtain ⟨k, hk, rfl⟩ := List.mem_mapIdx.1 ht
    obtain ⟨i, hi, rfl⟩ := List.mem_mapIdx.1 hs
    exact decide_eq_true (ConflictGraph.readCommitted_of_snapshot (of_decide_eq_true hmarked))

end Analysis

namespace Obligations

variable {os : Obligations} {o : Obligation} {readCommitted snapshot : Bool}

/-- A row that is validated under snapshot isolation is validated under read committed, and
written there if it is written. -/
def Nested (os : Obligations) : Prop :=
  ∀ o ∈ os.snapshot, ∃ r ∈ os.readCommitted, r.place = o.place ∧
    (o.kind.isWrite = true → r.kind.isWrite = true)

/-- The obligation is recorded, or an earlier one stands for it. -/
theorem exists_mem_record (earlier : List Obligation) (o : Obligation) :
    ∃ r ∈ Obligation.record earlier o, r.place = o.place ∧
      (o.kind.isWrite = true → r.kind.isWrite = true) := by
  cases hcovered : o.coveredBy earlier with
  | false => exact ⟨o, Obligation.mem_record.2 (.inr ⟨rfl, hcovered⟩), rfl, fun h => h⟩
  | true =>
      obtain ⟨-, r, hr, hwrite, hplace⟩ := Obligation.coveredBy_eq_true.1 hcovered
      exact ⟨r, Obligation.mem_record.2 (.inl hr), hplace, fun _ => hwrite⟩

theorem Nested.record (h : os.Nested) (hmarks : snapshot = true → readCommitted = true) :
    (os.record o readCommitted snapshot).Nested := by
  have hgrown : ∀ r ∈ os.readCommitted, r ∈ (os.record o readCommitted snapshot).readCommitted := by
    intro r hr
    simp only [Obligations.record]
    split
    · exact Obligation.mem_record.2 (.inl hr)
    · exact hr
  intro x hx
  by_cases hold : x ∈ os.snapshot
  · obtain ⟨r, hr, hplace, hwrite⟩ := h x hold
    exact ⟨r, hgrown r hr, hplace, hwrite⟩
  · -- a new obligation is the one recorded, and read committed records it too
    simp only [Obligations.record] at hx
    split at hx
    · rename_i hsnapshot
      obtain rfl : x = o := ((Obligation.mem_record.1 hx).resolve_left hold).1
      simp only [Obligations.record, hmarks hsnapshot, if_true]
      exact exists_mem_record _ x
    · exact absurd hx hold

/-- The plan for read committed covers the plan for snapshot isolation. -/
theorem Nested.covers (h : os.Nested) : (os.plan .readCommitted).Covers (os.plan .snapshot) := by
  intro q hq
  cases hkind : q.kind with
  | shared =>
      obtain ⟨o, ho, hplace⟩ := LockPlan.mem_places_ofObligations.1 (List.mem_map_of_mem hq)
      obtain ⟨r, hr, hrplace, -⟩ := h o ho
      obtain ⟨s, hs, hsplace⟩ :=
        List.mem_map.1 (LockPlan.mem_places_ofObligations.2 ⟨r, hr, hrplace.trans hplace⟩)
      refine ⟨s, hs, hsplace, ?_⟩
      cases s.kind <;> rfl
  | exclusive =>
      obtain ⟨o, ho, hplace, hwrite⟩ :=
        LockPlan.writes_ofObligations.1 (LockPlan.writes_eq_true.2 ⟨q, hq, rfl, hkind⟩)
      obtain ⟨r, hr, hrplace, hrwrite⟩ := h o ho
      obtain ⟨s, hs, hsplace, hskind⟩ := LockPlan.writes_eq_true.1
        (LockPlan.writes_ofObligations.2 ⟨r, hr, hrplace.trans hplace, hrwrite hwrite⟩)
      refine ⟨s, hs, hsplace, ?_⟩
      rw [hskind]
      rfl

end Obligations

/-- A switch between two protocols is under way, in one direction or the other. -/
def Barrier.Between (b : Barrier) (p q : Protocol) : Prop :=
  b.phase ≠ .stable ∧ (b.current = p ∧ b.next = q ∨ b.current = q ∧ b.next = p)

instance (b : Barrier) (p q : Protocol) : Decidable (b.Between p q) :=
  inferInstanceAs (Decidable (_ ∧ _))

namespace Engine

variable {e : Engine} {w : Worker} {t : OpenTransaction} {guard : Option Guard} {e₁ : Engine}

/-- Where no statement is marked for snapshot isolation alone, obligations are nested in every open
transaction. -/
theorem nested_through {workload : Workload} {config : EngineConfig} {keys : KeyRule}
    (hmarks : ∀ t ∈ workload.templates, ∀ s ∈ t.statements, s.validatedSnapshot = true →
      s.validatedReadCommitted = true)
    (hcreate : create workload config keys = .ok e) (turns : List Turn) {id : Nat}
    (hw : (e.through turns).worker? id = some w) (ht : w.current = some t) :
    t.obligations.Nested := by
  refine transactions_induction (P := fun t => t.obligations.Nested) ?_ ?_ hcreate turns hw ht
  · intro template sampled o ho
    cases ho
  · rintro t q key version ⟨template, htemplate, hstatement⟩ hnested
    apply hnested.record
    simp only [Bool.or_eq_true]
    exact Or.imp_left (hmarks template htemplate q.statement hstatement)

/-- A commit that follows read committed and has been validated holds its whole plan. -/
theorem Admitted.held_eq (h : e.Steady) (hw : w.Tidy e.workload.relations) (ht : w.current = some t)
    (hadmitted : Admitted e w t guard e₁) {d : Discipline}
    (hd : e.barrier.required.discipline? = some d) :
    guard = some ⟨w.transaction, t.obligations.plan d⟩ := by
  cases hadmitted with
  | unchecked hnone =>
      rw [hd] at hnone
      cases hnone
  | validated d' g _ hd' hlocks =>
      obtain rfl : d = d' := Option.some.inj (hd.symm.trans hd')
      have hscreened := lockAndValidateDuring_inv (w := w) h.whole ((hw.within t ht).obligations d)
        fun _ => e.store.unavailable
      rw [lockAndValidateDuring_const, hlocks] at hscreened
      cases hscreened with
      | passed _ _ _ => rfl

theorem discipline?_between {b : Barrier} (h : b.Between .snapshot .readCommitted) :
    b.required.discipline? = some .readCommitted := by
  obtain ⟨hphase, hprotocols⟩ := h
  have hrequired : b.required = b.current.safeTransition b.next := by
    simp only [Barrier.required]
  rw [hrequired]
  rcases hprotocols with ⟨hcurrent, hnext⟩ | ⟨hcurrent, hnext⟩
  · rw [hcurrent, hnext]
    rfl
  · rw [hcurrent, hnext]
    rfl

/-- In every conflict graph, read committed has to validate all statements that snapshot isolation
has to validate. And whatever happens to an engine with an analysed workload, the lock plan of an
open transaction for read committed covers its plan for snapshot isolation, so that a commit that
goes on during a switch between the two has locked the rows of both. -/
theorem plans_cover :
    (∀ (g : ConflictGraph) (p : StatementRef),
      p ∈ g.dangers.snapshot → p ∈ g.dangers.readCommitted) ∧
    ∀ {calls : List RegistryCall} {workload : Workload} {config : EngineConfig} {keys : KeyRule}
      {e : Engine}, (Registry.run calls).analyze = .ok workload →
      create workload config keys = .ok e → ∀ (turns : List Turn) {id : Nat}
        {w : Worker} {t : OpenTransaction}, (e.through turns).worker? id = some w →
        w.current = some t →
        (t.obligations.plan .readCommitted).Covers (t.obligations.plan .snapshot) ∧
          ∀ guard e₁, (e.through turns).barrier.Between .snapshot .readCommitted →
            Admitted (e.through turns) w t guard e₁ →
              ∃ g, guard = some g ∧ LockPlan.Covers g.held (t.obligations.plan .snapshot) := by
  constructor
  · intro g p
    exact ConflictGraph.readCommitted_of_snapshot
  · intro calls workload config keys e hanalyze hcreate turns id w t hw ht
    have hcovers := (nested_through (Registry.validated_of_analyze hanalyze) hcreate turns hw
      ht).covers
    refine ⟨hcovers, ?_⟩
    intro guard e₁ hswitch hadmitted
    have hsteady := (steady_create hcreate).through turns
    exact ⟨_, hadmitted.held_eq hsteady (hsteady.tidy id w hw) ht (discipline?_between hswitch),
      hcovers⟩

/-- The first transaction writes a row by one column and reads it by another. Only the read is
dangerous under snapshot isolation, and under read committed the write stands for it. -/
def aliased : List RegistryCall :=
  [.transaction "a", .transaction "b", .transaction "c",
    .statement SqlRule.identity "a" { kind := .write, relation := "y", bindings := [⟨0, "id"⟩] },
    .statement SqlRule.identity "a" { kind := .read, relation := "y", bindings := [⟨0, "code"⟩] },
    .statement SqlRule.identity "b" { kind := .read, relation := "y" },
    .statement SqlRule.identity "b" { kind := .write, relation := "q" },
    .statement SqlRule.identity "c" { kind := .write, relation := "y" },
    .statement SqlRule.identity "c" { kind := .write, relation := "q" }]

/-- A transaction of the first template is open while a switch to read committed begins. -/
def aliasedSwitch : List Turn :=
  ([.connect 1, .execute 1 "a" 0 [.int 1, .int 5], .execute 1 "a" 1 [.int 1],
    .request .readCommitted, .beginRequest] : List EngineAction).map fun a => .plain (.action a)

theorem aliased_plans_cover :
    ∃ workload e w t, (Registry.run aliased).analyze = .ok workload ∧
      create workload (.ofProtocol .snapshot) RowKey.standard = .ok e ∧
      (e.through aliasedSwitch).worker? 1 = some w ∧ w.current = some t ∧
      t.obligations.plan .readCommitted = [⟨"y", 1, .exclusive⟩] ∧
      t.obligations.plan .snapshot = [⟨"y", 1, .shared⟩] ∧
      (t.obligations.plan .readCommitted).Covers (t.obligations.plan .snapshot) ∧
      ∃ guard e₁, Admitted (e.through aliasedSwitch) w t guard e₁ ∧
        ∃ g, guard = some g ∧ LockPlan.Covers g.held (t.obligations.plan .snapshot) := by
  obtain ⟨workload, hanalyze, e, hcreate, hopen, hswitch⟩ :
      ∃ workload, (Registry.run aliased).analyze = .ok workload ∧
        ∃ e, create workload (.ofProtocol .snapshot) RowKey.standard = .ok e ∧
          ((e.through aliasedSwitch).worker? 1).any (fun w => w.current.any fun t =>
            decide (t.obligations.plan .readCommitted = [⟨"y", 1, .exclusive⟩] ∧
              t.obligations.plan .snapshot = [⟨"y", 1, .shared⟩]) &&
            ((e.through aliasedSwitch).lockAndValidate w t .readCommitted).1.toBool) = true ∧
          (e.through aliasedSwitch).barrier.Between .snapshot .readCommitted :=
    ⟨_, rfl, exists_create _ _ _ _ (by decide +kernel)⟩
  obtain ⟨w, hw, hopen⟩ := (Option.any_eq_true _ _).1 hopen
  obtain ⟨t, ht, hopen⟩ := (Option.any_eq_true _ _).1 hopen
  obtain ⟨hplans, hlocked⟩ := Bool.and_eq_true_iff.1 hopen
  obtain ⟨hreadCommitted, hsnapshot⟩ := of_decide_eq_true hplans
  obtain ⟨hcovers, hcommit⟩ := plans_cover.2 hanalyze hcreate aliasedSwitch hw ht
  cases hlocks : (e.through aliasedSwitch).lockAndValidate w t .readCommitted with
  | mk answer e₁ =>
      cases answer with
      | error f =>
          rw [hlocks] at hlocked
          cases hlocked
      | ok g =>
          have hadmitted := Admitted.validated .readCommitted g e₁
            (discipline?_between hswitch) hlocks
          exact ⟨workload, e, w, t, hanalyze, hcreate, hw, ht, hreadCommitted, hsnapshot, hcovers,
            some g, e₁, hadmitted, hcommit (some g) e₁ hswitch hadmitted⟩

end Engine

end LiveIsolation
