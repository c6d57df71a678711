import LiveIsolation.Proofs.LockTable.Guard
import Mathlib.Data.List.Induction

/-!
# Obligations that add up

The obligations that the statements of a transaction leave are recorded one after another, and
some reads are left out on the way. What is left out is a read of a row that the transaction
has written before, and the lock plan of what remains asks for the same rows.
-/

namespace LiveIsolation

/-- An element of a list that has grown stands where it stood before, or is the last one. -/
theorem exists_split_concat {α : Type} {P : List α → Prop} {xs : List α} {x a : α} :
    (∃ before after, xs ++ [x] = before ++ a :: after ∧ P before) ↔
      (∃ before after, xs = before ++ a :: after ∧ P before) ∨ (a = x ∧ P xs) := by
  constructor
  · rintro ⟨before, after, he, h⟩
    cases after using List.reverseRecOn with
    | nil =>
        obtain ⟨rfl, hx⟩ := List.append_inj' he rfl
        exact .inr ⟨(List.cons.inj hx).1.symm, h⟩
    | append_singleton after y =>
        have he' : xs ++ [x] = (before ++ a :: after) ++ [y] := by simpa using he
        obtain ⟨rfl, -⟩ := List.append_inj' he' rfl
        exact .inl ⟨before, after, rfl, h⟩
  · rintro (⟨before, after, rfl, h⟩ | ⟨rfl, h⟩)
    · exact ⟨before, after ++ [x], by simp, h⟩
    · exact ⟨xs, [], rfl, h⟩

/-- The elements of a list that pass a test, which sees the elements before them too. -/
def selected {α : Type} (keep : List α → α → Bool) (xs : List α) : List α :=
  (xs.zipIdx.filter fun e => keep (xs.take e.2) e.1).map Prod.fst

theorem selected_concat {α : Type} (keep : List α → α → Bool) (xs : List α) (x : α) :
    selected keep (xs ++ [x]) = selected keep xs ++ if keep xs x then [x] else [] := by
  have hearlier : xs.zipIdx.filter (fun e => keep ((xs ++ [x]).take e.2) e.1) =
      xs.zipIdx.filter fun e => keep (xs.take e.2) e.1 := by
    refine List.filter_congr fun e he => ?_
    obtain ⟨hi, -⟩ := List.mem_zipIdx' he
    rw [List.take_append_of_le_length hi.le]
  rw [selected, List.zipIdx_append, List.filter_append, List.map_append, hearlier, ← selected]
  cases hk : keep xs x with
  | true => simp [hk]
  | false => simp [hk]

namespace Obligation

variable {os : List Obligation} {o : Obligation}

/-- Records obligations one after another. -/
def recordAll (os : List Obligation) : List Obligation := os.foldl record []

theorem recordAll_concat (os : List Obligation) (o : Obligation) :
    recordAll (os ++ [o]) = record (recordAll os) o := by
  rw [recordAll, List.foldl_append]
  rfl

theorem coveredBy_eq_true {earlier : List Obligation} :
    o.coveredBy earlier = true ↔
      o.kind.isRead = true ∧ ∃ e ∈ earlier, e.kind.isWrite = true ∧ e.place = o.place := by
  simp [coveredBy]

/-- A write is never covered. -/
theorem coveredBy_of_isWrite (h : o.kind.isWrite = true) (earlier : List Obligation) :
    o.coveredBy earlier = false := by
  simp [coveredBy, OperationKind.isRead, h]

/-- A write is recorded if and only if it is there. -/
theorem mem_recordAll_of_isWrite (h : o.kind.isWrite = true) : o ∈ recordAll os ↔ o ∈ os := by
  induction os using List.reverseRecOn with
  | nil => simp [recordAll]
  | append_singleton os x ih =>
      rw [recordAll_concat, mem_record, ih, List.mem_append, List.mem_singleton]
      apply or_congr_right
      constructor
      · rintro ⟨rfl, -⟩
        rfl
      · rintro rfl
        exact ⟨rfl, coveredBy_of_isWrite h _⟩

/-- What is recorded covers what all obligations would. -/
theorem coveredBy_recordAll (os : List Obligation) (o : Obligation) :
    o.coveredBy (recordAll os) = o.coveredBy os := by
  rw [Bool.eq_iff_iff, coveredBy_eq_true, coveredBy_eq_true]
  refine and_congr_right fun _ => ?_
  constructor
  · rintro ⟨e, he, hw, hp⟩
    exact ⟨e, (mem_recordAll_of_isWrite hw).1 he, hw, hp⟩
  · rintro ⟨e, he, hw, hp⟩
    exact ⟨e, (mem_recordAll_of_isWrite hw).2 he, hw, hp⟩

/-- An obligation is recorded where those before it do not cover it. -/
theorem mem_recordAll :
    o ∈ recordAll os ↔ ∃ before after, os = before ++ o :: after ∧ o.coveredBy before = false := by
  induction os using List.reverseRecOn with
  | nil => simp [recordAll]
  | append_singleton os x ih =>
      rw [recordAll_concat, mem_record, ih, coveredBy_recordAll, exists_split_concat]
      refine or_congr_right (and_congr_right ?_)
      rintro rfl
      exact Iff.rfl

theorem mem_of_mem_recordAll (h : o ∈ recordAll os) : o ∈ os := by
  obtain ⟨before, after, rfl, -⟩ := mem_recordAll.1 h
  simp

end Obligation

namespace LockPlan

variable {os : List Obligation} {p : Place}

/-- The strongest kind of lock that obligations need on each row. -/
def kindsOf (os : List Obligation) : List (Place × LockKind) :=
  os.foldl (fun kinds o => Ordered.insertWith placeLt LockKind.max o.place o.lockKind kinds) []

theorem kindsOf_concat (os : List Obligation) (o : Obligation) :
    kindsOf (os ++ [o]) =
      Ordered.insertWith placeLt LockKind.max o.place o.lockKind (kindsOf os) := by
  rw [kindsOf, List.foldl_append]
  rfl

theorem sorted_kindsOf (os : List Obligation) : Ordered.Sorted placeLt (kindsOf os) := by
  induction os using List.reverseRecOn with
  | nil => exact List.Pairwise.nil
  | append_singleton os o ih =>
      rw [kindsOf_concat]
      exact Ordered.sorted_insertWith placeLt ih

/-- A row is asked for if an obligation touches it. -/
theorem isSome_lookup_kindsOf :
    ((kindsOf os).lookup p).isSome = true ↔ ∃ o ∈ os, o.place = p := by
  induction os using List.reverseRecOn with
  | nil => simp [kindsOf]
  | append_singleton os o ih =>
      rw [kindsOf_concat, Ordered.lookup_insertWith_sorted _ _ _ _ _ (sorted_kindsOf os)]
      by_cases hp : p = o.place
      · simp [hp]
      · have hne : ¬o.place = p := fun he => hp he.symm
        simp [hp, hne, ih]

/-- A row is asked for with an exclusive lock if an obligation writes it. -/
theorem lookup_kindsOf_eq_exclusive :
    (kindsOf os).lookup p = some .exclusive ↔
      ∃ o ∈ os, o.place = p ∧ o.kind.isWrite = true := by
  induction os using List.reverseRecOn with
  | nil => simp [kindsOf]
  | append_singleton os o ih =>
      rw [kindsOf_concat, Ordered.lookup_insertWith_sorted _ _ _ _ _ (sorted_kindsOf os)]
      have hkind : o.lockKind = .exclusive ↔ o.kind.isWrite = true := by
        cases hk : o.kind <;> simp [Obligation.lockKind, OperationKind.lockKind, hk,
          OperationKind.isWrite]
      by_cases hp : p = o.place
      · subst hp
        cases hl : (kindsOf os).lookup o.place with
        | none =>
            have hnone : ¬∃ x ∈ os, x.place = o.place ∧ x.kind.isWrite = true := by
              rw [← ih, hl]
              simp
            simp only [if_true, Option.elim_none, Option.some.injEq, hkind]
            constructor
            · intro hw
              exact ⟨o, by simp, rfl, hw⟩
            · rintro ⟨x, hx, hplace, hw⟩
              rcases List.mem_append.1 hx with hx | hx
              · exact absurd ⟨x, hx, hplace, hw⟩ hnone
              · exact List.mem_singleton.1 hx ▸ hw
        | some k =>
            have hold : k = .exclusive ↔ ∃ x ∈ os, x.place = o.place ∧ x.kind.isWrite = true := by
              rw [← ih, hl, Option.some.injEq]
            simp only [if_true, Option.elim_some, Option.some.injEq,
              LockKind.max_eq_exclusive_iff, hold, hkind]
            simp only [List.mem_append, List.mem_singleton, or_and_right, exists_or,
              exists_eq_left, true_and]
      · have hne : ¬o.place = p := fun he => hp he.symm
        simp [hp, hne, ih]

theorem ofObligations_eq (os : List Obligation) :
    ofObligations os = (kindsOf os).map fun e => ⟨e.1.1, e.1.2, e.2⟩ := rfl

theorem places_ofObligations (os : List Obligation) :
    (ofObligations os).places = (kindsOf os).map Prod.fst := by
  rw [ofObligations_eq, places, List.map_map]
  rfl

/-- A plan asks for each row once. -/
theorem nodup_places_ofObligations (os : List Obligation) : (ofObligations os).places.Nodup := by
  rw [places_ofObligations]
  exact (sorted_kindsOf os).nodup_keys

/-- A plan asks for the rows of its obligations. -/
theorem mem_places_ofObligations :
    p ∈ (ofObligations os).places ↔ ∃ o ∈ os, o.place = p := by
  rw [places_ofObligations, ← isSome_lookup_kindsOf, List.lookup_isSome_iff, List.mem_map]
  constructor
  · rintro ⟨e, he, rfl⟩
    exact ⟨e, he, beq_self_eq_true e.1⟩
  · rintro ⟨e, he, hp⟩
    exact ⟨e, he, (eq_of_beq hp).symm⟩

/-- A plan asks for rows of its obligations only. -/
theorem exists_of_mem_ofObligations {q : LockRequest} (h : q ∈ ofObligations os) :
    ∃ o ∈ os, o.relation = q.relation := by
  rw [ofObligations_eq] at h
  obtain ⟨e, he, rfl⟩ := List.mem_map.1 h
  obtain ⟨v, hv⟩ := Ordered.exists_lookup_of_mem (k := e.1) (v := e.2) he
  obtain ⟨o, ho, hplace⟩ := isSome_lookup_kindsOf.1 (Option.isSome_iff_exists.2 ⟨v, hv⟩)
  exact ⟨o, ho, congrArg Prod.fst hplace⟩

/-- A plan asks for a row with an exclusive lock if one of its obligations writes the row. -/
theorem writes_ofObligations :
    (ofObligations os).writes p = true ↔ ∃ o ∈ os, o.place = p ∧ o.kind.isWrite = true := by
  rw [← lookup_kindsOf_eq_exclusive, writes_eq_true, ofObligations_eq]
  constructor
  · rintro ⟨q, hq, rfl, hkind⟩
    obtain ⟨e, he, rfl⟩ := List.mem_map.1 hq
    rw [← hkind]
    exact (sorted_kindsOf os).lookup_of_mem he
  · intro hl
    exact ⟨⟨p.1, p.2, .exclusive⟩,
      List.mem_map.2 ⟨(p, .exclusive), Ordered.mem_of_lookup hl, rfl⟩, rfl, rfl⟩

end LockPlan

end LiveIsolation
