import LiveIsolation.Engine.Execute
import LiveIsolation.Proofs.Obligation
import LiveIsolation.Proofs.Store

/-!
# The log of a transaction

The log of a transaction lists the statements that it has run, each with the row that the
store held when it was run. Everything that an open transaction keeps follows from its log:
the rows that its connection sees as its own, the answers that it was given, what its commit
has to validate, and the versions that are made known afterwards.

## Implementation notes

The store's row stands in the log because it is gone when the transaction commits. A log with
the rows that the store holds at one time is what the transaction would have seen if it had run
at that time.
-/

namespace LiveIsolation

/-- A statement that was run, with the row that the store held for it. -/
structure Visit where
  ref : StatementRef
  statement : Statement
  args : List Value
  key : RowKey
  base : Option Row

namespace Visit

def place (v : Visit) : Place := (v.statement.relation, v.key)

def isWrite (v : Visit) : Bool := v.statement.kind.isWrite

/-- The value that a write puts into its row. -/
def value (v : Visit) : Value := v.statement.writtenValue v.args

/-- The version that a commit gives the row if nobody else commits it in between. -/
def nextVersion (v : Visit) : Nat := (v.base.getD {}).version + 1

/-- The transaction asks for the number of the row. -/
def keyed (v : Visit) (sampled : Bool) : Bool :=
  v.statement.validatedAny || (!v.statement.bindings.isEmpty && (v.isWrite || sampled))

/-- The row is the one that the WHERE clause gives with the arguments. -/
def Placed (keys : KeyRule) (v : Visit) : Prop :=
  ∃ columns, v.statement.resolve v.args = .ok columns ∧
    v.key = keys.number v.statement.relation columns

/-- The statement leaves an obligation under a discipline. -/
def recorded (v : Visit) (sampled : Bool) (d : Discipline) : Bool :=
  v.keyed sampled && (v.statement.validated d || sampled)

/-- The obligation of a statement with its outcome. A write saw the version before its own. -/
def obligation (v : Visit) (o : Outcome) : Obligation :=
  ⟨v.ref, v.statement.relation, v.key, v.statement.kind,
    if v.isWrite then o.version.map (· - 1) else o.version⟩

@[simp] theorem obligation_place (v : Visit) (o : Outcome) : (v.obligation o).place = v.place := rfl

@[simp] theorem obligation_kind (v : Visit) (o : Outcome) :
    (v.obligation o).kind = v.statement.kind := rfl

theorem Placed.placeOf_eq {v : Visit} {s : Store} (h : v.Placed s.keys) (hkeys : s.keys.Total) :
    s.placeOf v.statement v.args = .ok v.place := by
  obtain ⟨columns, hcolumns, hkey⟩ := h
  rw [Store.placeOf_eq hkeys hcolumns, ← hkey]
  rfl

end Visit

/-- The statements of a transaction in the order in which they were run. -/
abbrev Log := List Visit

namespace Log

variable {log earlier : Log} {v : Visit} {p : Place}

/-- A row as the transaction itself has written it. -/
def own? (log : Log) (p : Place) : Option Row :=
  log.foldl (fun own v =>
    if v.isWrite && v.place == p then some ⟨v.value, own.elim v.nextVersion (·.version)⟩ else own)
    none

/-- The answer to a statement after earlier ones of its transaction. -/
def outcome (earlier : Log) (v : Visit) : Outcome :=
  if v.isWrite then ⟨[], some ((earlier.own? v.place).elim v.nextVersion (·.version))⟩
  else .ofRow ((earlier.own? v.place).or v.base)

/-- The answers to statements after earlier ones of their transaction. -/
def toldAfter (earlier : Log) : Log → List (Visit × Outcome)
  | [] => []
  | v :: rest => (v, outcome earlier v) :: toldAfter (earlier ++ [v]) rest

/-- The statements of a transaction with their answers. -/
def told (log : Log) : List (Visit × Outcome) := toldAfter [] log

/-- What the commit has to validate under a discipline. -/
def obligations (log : Log) (sampled : Bool) (d : Discipline) : List Obligation :=
  Obligation.recordAll <|
    (log.told.filter fun x => x.1.recorded sampled d).map fun x => x.1.obligation x.2

/-- The written rows whose versions are made known after the commit. -/
def written (log : Log) (sampled : Bool) : List (Place × Nat) :=
  log.told.filterMap fun x =>
    if x.1.isWrite && x.1.keyed sampled then x.2.version.map (x.1.place, ·) else none

/-- A statement whose row has not been written before by its transaction. -/
def Fresh (log : Log) (v : Visit) : Prop :=
  ∃ before after, log = before ++ v :: after ∧ before.own? v.place = none

theorem Fresh.mem (h : log.Fresh v) : v ∈ log := by
  obtain ⟨before, after, rfl, -⟩ := h
  simp

theorem Fresh.concat (h : log.Fresh v) (u : Visit) : Fresh (log ++ [u]) v := by
  obtain ⟨before, after, rfl, hown⟩ := h
  exact ⟨before, after ++ [u], by simp, hown⟩

theorem fresh_last (h : log.own? v.place = none) : Fresh (log ++ [v]) v := ⟨log, [], rfl, h⟩

theorem own?_concat (log : Log) (v : Visit) (p : Place) :
    own? (log ++ [v]) p =
      if v.isWrite && v.place == p then
        some ⟨v.value, (log.own? p).elim v.nextVersion (·.version)⟩
      else log.own? p := by
  rw [own?, List.foldl_append]
  rfl

theorem toldAfter_append (earlier log later : Log) :
    toldAfter earlier (log ++ later) =
      toldAfter earlier log ++ toldAfter (earlier ++ log) later := by
  induction log generalizing earlier with
  | nil => simp [toldAfter]
  | cons v rest ih =>
      simp only [List.cons_append, toldAfter, ih, List.append_assoc, List.nil_append]

theorem told_concat (log : Log) (v : Visit) :
    told (log ++ [v]) = log.told ++ [(v, log.outcome v)] := by
  rw [told, toldAfter_append]
  rfl

theorem obligations_concat (log : Log) (v : Visit) (sampled : Bool) (d : Discipline) :
    obligations (log ++ [v]) sampled d =
      if v.recorded sampled d then
        Obligation.record (log.obligations sampled d) (v.obligation (log.outcome v))
      else log.obligations sampled d := by
  rw [obligations, told_concat, List.filter_append, List.map_append]
  cases hr : v.recorded sampled d with
  | true => simp [hr, Obligation.recordAll_concat, obligations]
  | false => simp [hr, obligations]

theorem written_concat (log : Log) (v : Visit) (sampled : Bool) :
    written (log ++ [v]) sampled =
      log.written sampled ++
        (if v.isWrite && v.keyed sampled then (log.outcome v).version.map (v.place, ·)
          else none).toList := by
  rw [written, told_concat, List.filterMap_append]
  congr 1

/-- A statement was answered after those that stand before it. -/
theorem mem_told {x : Visit × Outcome} :
    x ∈ log.told ↔ ∃ before after, log = before ++ x.1 :: after ∧ x.2 = before.outcome x.1 := by
  induction log using List.reverseRecOn with
  | nil => simp [told, toldAfter]
  | append_singleton log v ih =>
      rw [told_concat, List.mem_append, ih, List.mem_singleton, exists_split_concat]
      apply or_congr_right
      constructor
      · rintro rfl
        exact ⟨rfl, rfl⟩
      · rintro ⟨hv, ho⟩
        exact Prod.ext hv (by rw [ho, hv])

/-- A row is asked for with a write if a statement that leaves an obligation has written it. -/
theorem exists_write_obligation {sampled : Bool} {d : Discipline} :
    (∃ o ∈ log.obligations sampled d, o.kind.isWrite = true ∧ o.place = p) ↔
      ∃ v ∈ log, v.recorded sampled d = true ∧ v.isWrite = true ∧ v.place = p := by
  constructor
  · rintro ⟨o, ho, hwrite, hplace⟩
    obtain ⟨x, hx, rfl⟩ := List.mem_map.1 (Obligation.mem_of_mem_recordAll ho)
    obtain ⟨hx, hrecorded⟩ := List.mem_filter.1 hx
    obtain ⟨before, after, hlog, -⟩ := mem_told.1 hx
    exact ⟨x.1, by simp [hlog], hrecorded, hwrite, hplace⟩
  · rintro ⟨v, hv, hrecorded, hwrite, hplace⟩
    obtain ⟨before, after, hlog⟩ := List.append_of_mem hv
    have hkind : (v.obligation (outcome before v)).kind.isWrite = true := hwrite
    refine ⟨v.obligation (outcome before v), ?_, hkind, hplace⟩
    rw [obligations, Obligation.mem_recordAll_of_isWrite hkind]
    refine List.mem_map.2 ⟨(v, outcome before v), List.mem_filter.2 ⟨?_, hrecorded⟩, rfl⟩
    exact mem_told.2 ⟨before, after, hlog, rfl⟩

/-- A statement that leaves an obligation has it recorded, unless it reads a row that is
recorded as written. -/
theorem mem_obligations {sampled : Bool} {d : Discipline} {o : Obligation} :
    o ∈ log.obligations sampled d ↔
      ∃ (before : Log) (v : Visit) (after : Log), log = before ++ v :: after ∧
        v.recorded sampled d = true ∧ o = v.obligation (outcome before v) ∧
        (v.isWrite = true ∨
          ∀ u ∈ before, u.recorded sampled d = true → u.isWrite = true → u.place ≠ v.place) := by
  induction log using List.reverseRecOn with
  | nil => simp [obligations, told, toldAfter, Obligation.recordAll]
  | append_singleton log v ih =>
      have hcovered : (v.obligation (outcome log v)).coveredBy (obligations log sampled d) = false ↔
          (v.isWrite = true ∨
            ∀ u ∈ log, u.recorded sampled d = true → u.isWrite = true → u.place ≠ v.place) := by
        rw [← Bool.not_eq_true, Obligation.coveredBy_eq_true, Visit.obligation_place,
          exists_write_obligation]
        change ¬((!v.isWrite) = true ∧ _) ↔ _
        cases v.isWrite with
        | true => simp
        | false => simp
      rw [obligations_concat]
      constructor
      · intro ho
        have hlast : o ∈ obligations log sampled d ∨ (v.recorded sampled d = true ∧
            o = v.obligation (outcome log v) ∧
            (v.obligation (outcome log v)).coveredBy (obligations log sampled d) = false) := by
          split at ho
          · rename_i hrecorded
            rcases Obligation.mem_record.1 ho with ho | ⟨ho, hc⟩
            · exact .inl ho
            · exact .inr ⟨hrecorded, ho, hc⟩
          · exact .inl ho
        rcases hlast with ho | ⟨hrecorded, ho, hc⟩
        · obtain ⟨before, u, after, rfl, hrest⟩ := ih.1 ho
          exact ⟨before, u, after ++ [v], by simp, hrest⟩
        · exact ⟨log, v, [], rfl, hrecorded, ho, hcovered.1 hc⟩
      · intro h
        rw [exists_comm] at h
        obtain ⟨u, hu⟩ := h
        rcases exists_split_concat.1 hu with
          ⟨before, after, hlog, hrest⟩ | ⟨rfl, hrecorded, ho, hc⟩
        · have hmem := ih.2 ⟨before, u, after, hlog, hrest⟩
          split
          · exact Obligation.mem_record.2 (.inl hmem)
          · exact hmem
        · rw [if_pos hrecorded]
          exact Obligation.mem_record.2 (.inr ⟨ho, hcovered.2 hc⟩)

/-- A row is the transaction's own if one of its statements has written it. -/
theorem own?_eq_none : log.own? p = none ↔ ∀ v ∈ log, v.isWrite = true → v.place ≠ p := by
  induction log using List.reverseRecOn with
  | nil => simp [own?]
  | append_singleton log v ih =>
      rw [own?_concat]
      by_cases hv : v.isWrite = true ∧ v.place = p
      · simp [hv.1, hv.2]
      · have hb : (v.isWrite && v.place == p) = false := by
          simpa using hv
        rw [hb, if_neg Bool.false_ne_true, ih]
        constructor
        · intro h u hu hw hp
          rcases List.mem_append.1 hu with hu | hu
          · exact h u hu hw hp
          · rw [List.mem_singleton.1 hu] at hw hp
            exact hv ⟨hw, hp⟩
        · intro h u hu
          exact h u (List.mem_append_left _ hu)

/-- All writes of a row report the version that the first of them would be committed with. -/
theorem own?_eq_some {row : Row} (h : log.own? p = some row) :
    ∃ v, log.Fresh v ∧ v.isWrite = true ∧ v.place = p ∧ row.version = v.nextVersion := by
  induction log using List.reverseRecOn generalizing row with
  | nil => cases h
  | append_singleton log v ih =>
      rw [own?_concat] at h
      by_cases hv : (v.isWrite && v.place == p) = true
      · rw [if_pos hv] at h
        rw [Bool.and_eq_true, beq_iff_eq] at hv
        cases hown : own? log p with
        | none =>
            rw [hown] at h
            exact ⟨v, fresh_last (hv.2 ▸ hown), hv.1, hv.2, by rw [← Option.some.inj h]; rfl⟩
        | some own =>
            rw [hown] at h
            obtain ⟨u, hu, hw, hp, hversion⟩ := ih hown
            exact ⟨u, hu.concat v, hw, hp, by rw [← Option.some.inj h]; exact hversion⟩
      · rw [if_neg hv] at h
        obtain ⟨u, hu, hrest⟩ := ih h
        exact ⟨u, hu.concat v, hrest⟩

/-- Before its transaction has written a row, a statement observes the store's version. -/
theorem observed_of_fresh (h : log.own? v.place = none) :
    (v.obligation (log.outcome v)).observed =
      if v.isWrite then some (v.base.getD {}).version else v.base.map (·.version) := by
  simp only [Visit.obligation, outcome]
  rw [h]
  cases v.isWrite with
  | true => rfl
  | false => cases v.base <;> rfl

/-- Afterwards a statement that reads observes the version that is to be committed. -/
theorem observed_of_own {row : Row} (h : log.own? v.place = some row) :
    (v.obligation (log.outcome v)).observed =
      some (if v.isWrite then row.version - 1 else row.version) := by
  simp only [Visit.obligation, outcome]
  rw [h]
  cases v.isWrite with
  | true => rfl
  | false => rfl

/-- A version that is made known was reported for the first write of its row. -/
theorem mem_written {sampled : Bool} {n : Nat} (h : (p, n) ∈ log.written sampled) :
    ∃ v, log.Fresh v ∧ v.isWrite = true ∧ v.place = p ∧ n = v.nextVersion := by
  obtain ⟨x, hx, hpn⟩ := List.mem_filterMap.1 h
  obtain ⟨before, after, hlog, ho⟩ := mem_told.1 hx
  by_cases hv : (x.1.isWrite && x.1.keyed sampled) = true
  · rw [if_pos hv] at hpn
    rw [Bool.and_eq_true] at hv
    rw [ho, outcome, if_pos hv.1, Option.map_some, Option.some.injEq, Prod.mk.injEq] at hpn
    cases hown : before.own? x.1.place with
    | none =>
        rw [hown] at hpn
        exact ⟨x.1, ⟨before, after, hlog, hown⟩, hv.1, hpn.1, hpn.2.symm⟩
    | some row =>
        rw [hown] at hpn
        obtain ⟨u, ⟨first, second, hbefore, hfresh⟩, hw, hplace, hversion⟩ := own?_eq_some hown
        refine ⟨u, ⟨first, second ++ x.1 :: after, ?_, hfresh⟩, hw, hplace.trans hpn.1,
          hpn.2.symm.trans hversion⟩
        rw [hlog, hbefore, List.append_assoc, List.cons_append]
  · rw [if_neg hv] at hpn
    cases hpn

end Log

/-- A statement is answered as its log says, and the connection's own rows remain those of the
log. -/
theorem Connection.execute_log {c d : Connection} {s : Store} {log : Log} {v : Visit}
    {o : Outcome} (hsorted : Ordered.Sorted placeLt c.writes)
    (hown : ∀ p, c.pending? p = log.own? p) (hbase : v.base = s.row? v.place)
    (hplace : s.placeOf v.statement v.args = .ok v.place)
    (hexec : c.execute s v.statement v.args = .ok (o, d)) :
    o = log.outcome v ∧ Ordered.Sorted placeLt d.writes ∧
      ∀ p, d.pending? p = Log.own? (log ++ [v]) p := by
  obtain ⟨-, p, hp, hod⟩ := execute_eq_ok.1 hexec
  rw [hplace] at hp
  cases hp
  simp only [Log.outcome]
  cases hw : v.isWrite with
  | true =>
      rw [if_pos (show v.statement.kind.isWrite = true from hw)] at hod
      have ho : o = (c.write s v.place v.value).1 := congrArg Prod.fst hod
      have hd : d = (c.write s v.place v.value).2 := congrArg Prod.snd hod
      refine ⟨?_, ?_, ?_⟩
      · rw [ho, write_outcome, hown, if_pos rfl, Visit.nextVersion, hbase]
      · rw [hd]
        exact sorted_write hsorted s v.place v.value
      · intro q
        rw [hd, pending?_write, Log.own?_concat, hw, hown, hown, Visit.nextVersion, hbase]
        by_cases hq : q = v.place
        · simp [hq]
        · have hne : ¬v.place = q := fun he => hq he.symm
          simp [hq, hne]
  | false =>
      have hread : ¬v.statement.kind.isWrite = true := by
        rw [show v.statement.kind.isWrite = false from hw]
        exact Bool.false_ne_true
      rw [if_neg hread] at hod
      have ho : o = c.read s v.place := congrArg Prod.fst hod
      have hd : d = c := congrArg Prod.snd hod
      refine ⟨?_, hd ▸ hsorted, ?_⟩
      · rw [ho, if_neg Bool.false_ne_true, read_eq, hown, hbase]
      · intro q
        rw [hd, hown, Log.own?_concat, hw, Bool.false_and, if_neg Bool.false_ne_true]

namespace OpenTransaction

/-- An open transaction keeps what its log says. -/
structure Follows (t : OpenTransaction) (log : Log) : Prop where
  obligations : ∀ d, t.obligations.under d = log.obligations t.sampled d
  written : t.written = log.written t.sampled

/-- A transaction that has begun follows the empty log. -/
theorem follows_nil (template : Transaction) (sampled : Bool) :
    Follows { template, sampled } [] where
  obligations d := by cases d <;> rfl
  written := rfl

/-- A statement is recorded as the log says. -/
theorem Follows.record {t : OpenTransaction} {log : Log} (h : t.Follows log) {q : ReadyStatement}
    {v : Visit} (href : v.ref = ⟨q.template.id, q.index⟩) (hstatement : v.statement = q.statement)
    (hkeyed : v.keyed t.sampled = true) :
    (t.record q v.key (log.outcome v).version).Follows (log ++ [v]) where
  obligations d := by
    change (t.obligations.record _ _ _).under d = Log.obligations _ t.sampled d
    have hobligation : (⟨⟨q.template.id, q.index⟩, q.statement.relation, v.key, q.statement.kind,
        if q.statement.kind.isWrite then (log.outcome v).version.map (· - 1)
        else (log.outcome v).version⟩ : Obligation) = v.obligation (log.outcome v) := by
      rw [← href, ← hstatement]
      rfl
    rw [Obligations.under_record, Log.obligations_concat, hobligation, ← h.obligations,
      ← hstatement, Visit.recorded, hkeyed]
    cases d <;> rfl
  written := by
    change _ = Log.written _ t.sampled
    rw [Log.written_concat, ← h.written, hkeyed, Bool.and_true]
    unfold OpenTransaction.record
    dsimp only
    rw [← hstatement, show v.statement.kind.isWrite = v.isWrite from rfl]
    cases v.isWrite with
    | true =>
        cases (log.outcome v).version with
        | none => simp
        | some n => rfl
    | false => simp

/-- A statement whose row is not asked for leaves the transaction as it is. -/
theorem Follows.skip {t : OpenTransaction} {log : Log} (h : t.Follows log) {v : Visit}
    (hkeyed : v.keyed t.sampled = false) : t.Follows (log ++ [v]) where
  obligations d := by
    rw [Log.obligations_concat, Visit.recorded, hkeyed, Bool.false_and, if_neg Bool.false_ne_true]
    exact h.obligations d
  written := by
    rw [Log.written_concat, hkeyed, Bool.and_false, if_neg Bool.false_ne_true, ← h.written]
    exact (List.append_nil _).symm

end OpenTransaction

end LiveIsolation
