import LiveIsolation.Proofs.Obligation

/-!
# Reads that need no obligation

A record leaves out a read of a row that its transaction has written before. It looks for the
write among the obligations that were kept under the discipline, and these are not all that were
recorded. What is kept in the end is nevertheless said by the records alone
(`Obligation.uncovered`), and the locks of a commit are those that all the records ask for.
-/

namespace LiveIsolation

namespace Obligation

/-- The obligation does not write, and an earlier one writes its row. -/
def Covered (earlier : List Obligation) (o : Obligation) : Prop :=
  o.kind ≠ .write ∧ ∃ e ∈ earlier, e.kind = .write ∧ e.relation = o.relation ∧ e.key = o.key

instance (earlier : List Obligation) (o : Obligation) : Decidable (Covered earlier o) :=
  inferInstanceAs (Decidable (_ ∧ _))

/-- The obligations of a list without those that earlier ones of it cover. -/
def uncovered (os : List Obligation) : List Obligation :=
  selected (fun earlier o => ¬Covered earlier o) os

theorem coveredBy_iff {earlier : List Obligation} {o : Obligation} :
    o.coveredBy earlier = true ↔ Covered earlier o := by
  have hwrite : ∀ e : Obligation, e.kind.isWrite = true ↔ e.kind = .write := by
    intro e
    cases e.kind <;> decide
  have hread : o.kind.isRead = true ↔ o.kind ≠ .write := by
    cases o.kind <;> decide
  simp only [coveredBy_eq_true, hwrite, hread, Covered, place, Prod.mk.injEq]

/-- What is kept of obligations that are recorded one after another. -/
theorem recordAll_eq (os : List Obligation) : recordAll os = uncovered os := by
  induction os using List.reverseRecOn with
  | nil => rfl
  | append_singleton os o ih =>
      rw [recordAll_concat, record, coveredBy_recordAll, ih, uncovered, uncovered, selected_concat]
      by_cases hc : Covered os o
      · simp [hc, coveredBy_iff.2 hc]
      · simp [hc, mt coveredBy_iff.1 hc]

/-- What is left out touches no row that what is kept does not touch. -/
theorem exists_mem_recordAll {os : List Obligation} {p : Place} :
    (∃ o ∈ recordAll os, o.place = p) ↔ ∃ o ∈ os, o.place = p := by
  constructor
  · rintro ⟨o, ho, hplace⟩
    exact ⟨o, mem_of_mem_recordAll ho, hplace⟩
  · rintro ⟨o, ho, rfl⟩
    obtain ⟨before, after, rfl⟩ := List.append_of_mem ho
    cases hcovered : o.coveredBy before with
    | false => exact ⟨o, mem_recordAll.2 ⟨before, after, rfl, hcovered⟩, rfl⟩
    | true =>
        -- the write that covers it is kept
        obtain ⟨-, e, he, hwrite, hplace⟩ := coveredBy_eq_true.1 hcovered
        exact ⟨e, (mem_recordAll_of_isWrite hwrite).2 (List.mem_append_left _ he), hplace⟩

end Obligation

namespace LockPlan

variable {os os' : List Obligation} {q : LockRequest}

theorem lookup_kindsOf_eq_some {p : Place} {kind : LockKind} :
    (kindsOf os).lookup p = some kind ↔
      (∃ o ∈ os, o.place = p) ∧
        (kind = .exclusive ↔ ∃ o ∈ os, o.place = p ∧ o.kind.isWrite = true) := by
  rw [← isSome_lookup_kindsOf, ← lookup_kindsOf_eq_exclusive]
  cases (kindsOf os).lookup p with
  | none => simp
  | some k => cases k <;> cases kind <;> simp

/-- A plan asks for a row if an obligation touches it, and with an exclusive lock if one writes
it. -/
theorem mem_ofObligations :
    q ∈ ofObligations os ↔
      (∃ o ∈ os, o.place = q.place) ∧
        (q.kind = .exclusive ↔ ∃ o ∈ os, o.place = q.place ∧ o.kind.isWrite = true) := by
  rw [← lookup_kindsOf_eq_some, ofObligations_eq]
  constructor
  · intro hq
    obtain ⟨e, he, rfl⟩ := List.mem_map.1 hq
    exact (sorted_kindsOf os).lookup_of_mem he
  · intro hl
    exact List.mem_map.2 ⟨(q.place, q.kind), Ordered.mem_of_lookup hl, rfl⟩

theorem pairwise_ofObligations (os : List Obligation) :
    (ofObligations os).Pairwise fun q r => placeLt q.place r.place = true := by
  rw [ofObligations_eq, List.pairwise_map]
  exact sorted_kindsOf os

/-- Obligations that touch and write the same rows have the same plan. -/
theorem ofObligations_congr (htouch : ∀ p, (∃ o ∈ os, o.place = p) ↔ ∃ o ∈ os', o.place = p)
    (hwrite : ∀ p, (∃ o ∈ os, o.place = p ∧ o.kind.isWrite = true) ↔
      ∃ o ∈ os', o.place = p ∧ o.kind.isWrite = true) :
    ofObligations os = ofObligations os' := by
  have hkinds : kindsOf os = kindsOf os' := by
    apply (sorted_kindsOf os).ext (sorted_kindsOf os')
    intro p
    ext kind
    rw [lookup_kindsOf_eq_some, lookup_kindsOf_eq_some, htouch, hwrite]
  rw [ofObligations_eq, ofObligations_eq, hkinds]

/-- What is left out of the records asks for no lock of its own. -/
theorem ofObligations_recordAll (os : List Obligation) :
    ofObligations (Obligation.recordAll os) = ofObligations os := by
  refine ofObligations_congr (fun p => Obligation.exists_mem_recordAll) fun p => ?_
  constructor
  · rintro ⟨o, ho, h⟩
    exact ⟨o, Obligation.mem_of_mem_recordAll ho, h⟩
  · rintro ⟨o, ho, h⟩
    exact ⟨o, (Obligation.mem_recordAll_of_isWrite h.2).2 ho, h⟩

end LockPlan

/-- An obligation and the disciplines that it is recorded for. -/
structure RecordCall where
  obligation : Obligation
  readCommitted : Bool
  snapshot : Bool
  deriving DecidableEq, Repr

namespace RecordCall

/-- The obligation is recorded for the discipline. -/
def asks (c : RecordCall) : Discipline → Bool
  | .readCommitted => c.readCommitted
  | .snapshot => c.snapshot

/-- All obligations that are recorded for a discipline, in order. -/
def asked (calls : List RecordCall) (d : Discipline) : List Obligation :=
  (calls.filter (·.asks d)).map RecordCall.obligation

end RecordCall

namespace Obligations

/-- What a sequence of records leaves. -/
def recorded (calls : List RecordCall) : Obligations :=
  calls.foldl (fun os c => os.record c.obligation c.readCommitted c.snapshot) {}

theorem under_record_call (os : Obligations) (c : RecordCall) (d : Discipline) :
    (os.record c.obligation c.readCommitted c.snapshot).under d =
      if c.asks d then Obligation.record (os.under d) c.obligation else os.under d := by
  cases d <;> rfl

theorem under_recorded (calls : List RecordCall) (d : Discipline) :
    (recorded calls).under d = Obligation.recordAll (RecordCall.asked calls d) := by
  induction calls using List.reverseRecOn with
  | nil => cases d <;> rfl
  | append_singleton calls c ih =>
      have hlast : recorded (calls ++ [c]) =
          (recorded calls).record c.obligation c.readCommitted c.snapshot := by
        rw [recorded, List.foldl_append]
        rfl
      rw [hlast, under_record_call, ih, RecordCall.asked, RecordCall.asked, List.filter_append,
        List.map_append]
      cases hc : c.asks d with
      | true => simp [hc, Obligation.recordAll_concat]
      | false => simp [hc]

/-- For each discipline, what a sequence of records leaves are the obligations recorded for it
without the reads and scans of rows that one of them writes before. The lock plan asks for the
touched rows of all of them, each once and in strict order, and for the written ones with an
exclusive lock; it is the plan of what was recorded, with nothing left out. What is recorded for
the other discipline alone has no part in either. -/
theorem reads_left_out_lose_no_lock (calls : List RecordCall) (d : Discipline) :
    (recorded calls).under d = Obligation.uncovered (RecordCall.asked calls d) ∧
      (recorded calls).plan d = LockPlan.ofObligations (RecordCall.asked calls d) ∧
      ((recorded calls).plan d).Pairwise (fun q r =>
        q.relation < r.relation ∨ q.relation = r.relation ∧ q.key < r.key) ∧
      (∀ q, q ∈ (recorded calls).plan d ↔
        (∃ o ∈ RecordCall.asked calls d, o.place = q.place) ∧
          (q.kind = .exclusive ↔
            ∃ o ∈ RecordCall.asked calls d, o.place = q.place ∧ o.kind = .write)) ∧
      (recorded (calls.filter (·.asks d))).under d = (recorded calls).under d ∧
      (recorded (calls.filter (·.asks d))).plan d = (recorded calls).plan d := by
  have hunder := under_recorded calls d
  have hplan : (recorded calls).plan d = LockPlan.ofObligations (RecordCall.asked calls d) := by
    rw [plan, hunder, LockPlan.ofObligations_recordAll]
  have hothers : (recorded (calls.filter (·.asks d))).under d = (recorded calls).under d := by
    rw [hunder, under_recorded, RecordCall.asked, List.filter_filter, RecordCall.asked]
    simp only [Bool.and_self]
  have hwrite : ∀ o : Obligation, o.kind.isWrite = true ↔ o.kind = .write := by
    intro o
    cases o.kind <;> decide
  refine ⟨hunder.trans (Obligation.recordAll_eq _), hplan, ?_, ?_, hothers, ?_⟩
  · rw [hplan]
    exact (LockPlan.pairwise_ofObligations _).imp fun h => placeLt_iff.1 h
  · intro q
    rw [hplan, LockPlan.mem_ofObligations]
    simp only [hwrite]
  · rw [plan, plan, hothers]

/-- A read of a row that is written before under one discipline only. -/
example :
    let o : OperationKind → Obligation := fun kind => ⟨⟨0, 0⟩, "x", 1, kind, none⟩
    recorded [⟨o .write, true, false⟩, ⟨o .read, true, true⟩] =
      { readCommitted := [o .write], snapshot := [o .read] } := by decide

end Obligations

end LiveIsolation
