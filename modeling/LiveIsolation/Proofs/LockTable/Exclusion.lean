import LiveIsolation.Proofs.LockTable.Tally

/-!
# What locks keep apart

Under snapshot isolation a row is held by readers or by one writer (`Race.Apart`), and a version
that has been validated stays until its guard gives the row back. Under read committed this is so
for a commit that does not write what it has read: a commit that does holds the row together with
other writers, and their commits move the version. Among commits under both disciplines a writer
under snapshot isolation is alone exactly as long as no writer under read committed joins it.
-/

namespace LiveIsolation

namespace Race

variable {r : Race} {t : LockTable} {p : Place} {id : Nat}

/-- A row is held by nobody, by readers or by one writer, and its lock says so. -/
inductive Apart (r : Race) (p : Place) : Prop where
  | free (hnone : ∀ id, p ∉ (r.parties id).held.places) (hhold : r.table.hold? p = none)
  | readers (holders : Finset Nat) (hne : holders.Nonempty)
    (hholders : ∀ id kind, (r.parties id).Holds p kind ↔ id ∈ holders ∧ kind = .shared)
    (hhold : r.table.hold? p = some (.shared, holders.card))
  | writer (id : Nat)
    (hholders : ∀ other kind, (r.parties other).Holds p kind ↔ other = id ∧ kind = .exclusive)
    (hhold : r.table.hold? p = some (.exclusive, 1))

/-- If no commit is under read committed, then a writer is alone. -/
theorem Sound.apart_of_snapshot (h : r.Sound) (hall : ∀ id, (r.parties id).discipline = .snapshot)
    (p : Place) : r.Apart p := by
  obtain ⟨holders, kind, htogether⟩ := h.tally p
  obtain hempty | hne := holders.eq_empty_or_nonempty
  · refine .free (fun id hp => ?_) (by rw [htogether.count, if_pos hempty])
    obtain ⟨k, hk⟩ := Committer.exists_holds hp
    have hmem := ((htogether.holds id k).1 hk).1
    rw [hempty] at hmem
    exact Finset.notMem_empty id hmem
  · have hcount : r.table.hold? p = some (kind, holders.card) := by
      rw [htogether.count, if_neg hne.ne_empty]
    cases kind with
    | shared => exact .readers holders hne htogether.holds hcount
    | exclusive =>
        obtain ⟨id, hid⟩ := hne
        have halone : holders = {id} := by
          apply Finset.eq_singleton_iff_unique_mem.2
          refine ⟨hid, fun other hother => ?_⟩
          by_contra ho
          have hapart := h.apart p other id ho ((htogether.holds other .exclusive).2 ⟨hother, rfl⟩)
            ((htogether.holds id .exclusive).2 ⟨hid, rfl⟩)
          rw [hall, hall] at hapart
          rcases hapart with hapart | hapart <;> cases hapart
        refine .writer id ?_ (by rw [hcount, halone, Finset.card_singleton])
        intro other k
        rw [htogether.holds, halone, Finset.mem_singleton]

/-- A commit that has validated without a conflict holds the row of every obligation that saw a
version, and has found the known version to be the one seen, or none to be known. -/
theorem Tallied.validated (h : r.Tallied) {lookup : Lookup}
    (hstage : (r.parties id).stage = .validating [] [] lookup) {o : Obligation}
    (ho : o ∈ (r.parties id).duties) {v : Nat} (hv : o.observed = some v) :
    o.place ∈ (r.parties id).held.places ∧
      ((r.parties id).Agreed o ∨ (o, none) ∈ (r.parties id).compared) := by
  refine ⟨(h.orderly id).holds_duty hstage ho, ?_⟩
  have hall := (h.orderly id).at_stage
  rw [hstage] at hall
  rcases hall.2 o ho with hmem | hcompared
  · cases hmem
  · obtain ⟨current, hcurrent, hagree⟩ := hcompared v hv
    rcases hagree rfl with rfl | rfl
    · exact .inr hcurrent
    · left
      rw [Committer.Agreed, hv]
      exact ⟨rfl, hcurrent⟩

/-- Commits under snapshot isolation over one table, in whatever order they move: each row is
held by nobody, by readers or by one writer. Once an obligation has been compared, a version of
its row that is known stays until the guard gives the row back, and if the comparison found the
version that was seen, then this one does. -/
theorem snapshot_locks_exclude (hfit : t.Fit []) (hfree : t.Free)
    {obligations : Nat → Obligations} {moves : List (Nat × CommitMove)}
    (hr : (start t (fun _ => .snapshot) obligations).run moves = r)
    (later : List (Nat × CommitMove)) :
    (∀ p, r.Apart p) ∧
      (∀ id lookup, (r.parties id).stage = .validating [] [] lookup →
        ∀ o ∈ (obligations id).under .snapshot, ∀ v, o.observed = some v →
          o.place ∈ (r.parties id).held.places ∧
            ((r.parties id).Agreed o ∨ (o, none) ∈ (r.parties id).compared)) ∧
      ∀ id o current, (o, current) ∈ (r.parties id).compared →
        o.place ∈ ((r.run later).parties id).held.places →
          (∀ v, r.table.cached? o.place = some v →
            (r.run later).table.cached? o.place = some v) ∧
          ((r.parties id).Agreed o → (r.run later).table.cached? o.place = o.observed) := by
  have hstart := sound_start hfit hfree (fun _ => .snapshot) obligations
  have hsound := hstart.run moves
  have hparties := hstart.parties_run moves
  rw [hr] at hsound hparties
  have hall : ∀ id, (r.parties id).discipline = .snapshot :=
    fun id => (hparties id).1
  have hduties : ∀ id, (r.parties id).duties = (obligations id).under .snapshot := by
    intro id
    rw [Committer.duties, hall, (hparties id).2.1]
    rfl
  refine ⟨hsound.apart_of_snapshot hall, ?_, ?_⟩
  · intro id lookup hstage o ho v hv
    exact hsound.validated hstage (hduties id ▸ ho) hv
  · intro id o current hcompared hheld
    have hshield : r.Shielded id o.place := .inr hall
    have hsteady : ∀ v, r.table.cached? o.place = some v →
        (r.run later).table.cached? o.place = some v :=
      fun v hv => hsound.cached_run later hcompared hheld hshield hv
    refine ⟨hsteady, fun hagreed => ?_⟩
    have hnow := hsound.steady id o hagreed (hsound.held_of_run later hcompared hheld) hshield
    obtain ⟨v, hv⟩ := Option.isSome_iff_exists.1 hagreed.1
    rw [hv] at hnow ⊢
    exact hsteady v hnow

/-- A table for the rows of one relation. -/
def oneRelation : LockTable := { config := {}, relations := [("x", {})] }

theorem create_oneRelation : LockTable.create ["x"] {} = .ok oneRelation := rfl

theorem oneRelation_fit : oneRelation.Fit [] where
  sorted := (LockTable.create_eq_ok create_oneRelation).1.sorted
  knows _ h := absurd h List.not_mem_nil

theorem oneRelation_free : oneRelation.Free := (LockTable.create_eq_ok create_oneRelation).2.1

/-- A read of the row 1 that saw the version 1. -/
def readOne : Obligation := ⟨⟨0, 0⟩, "x", 1, .read, some 1⟩

/-- A write of the row 1 that saw the version 1. -/
def writeOne : Obligation := ⟨⟨0, 1⟩, "x", 1, .write, some 1⟩

def justReads : Obligations := ({} : Obligations).record readOne true true

/-- A transaction reads the row 1 and writes it. -/
def readsAndWrites : Obligations := justReads.record writeOne true true

/-- Some moves of one commit after another. -/
def nexts (id n : Nat) : List (Nat × CommitMove) := List.replicate n (id, .next)

/-- Two commits take the row 1 and validate. Both ask the store before either knows the answer. -/
def bothValidate : List (Nat × CommitMove) :=
  nexts 1 4 ++ nexts 2 4 ++ [(1, .answer (.ok (some 1))), (2, .answer (.ok (some 1)))] ++
    nexts 1 3 ++ nexts 2 3

/-- The first commit ends, as after a commit of the store. -/
def firstCommits : List (Nat × CommitMove) := [(1, .finish true), (1, .next)]

/-- Two readers under snapshot isolation that have validated. -/
def readers : Race := (start oneRelation (fun _ => .snapshot) fun _ => justReads).run bothValidate

theorem readers_exclude :
    oneRelation.Fit [] ∧ oneRelation.Free ∧ (∀ p, readers.Apart p) ∧
      (readers.parties 2).Agreed readOne ∧
      readOne.place ∈ ((readers.run firstCommits).parties 2).held.places ∧
      (readers.run firstCommits).table.cached? readOne.place = some 1 := by
  have hrace : (start oneRelation (fun _ => .snapshot) fun _ => justReads).run bothValidate =
      readers := rfl
  obtain ⟨hapart, -, hsteady⟩ := snapshot_locks_exclude oneRelation_fit oneRelation_free hrace
    firstCommits
  have hagreed : (readers.parties 2).Agreed readOne := by decide +kernel
  have hheld : readOne.place ∈ ((readers.run firstCommits).parties 2).held.places := by
    decide +kernel
  have hsteady' := (hsteady 2 readOne (some 1) hagreed.2 hheld).2 hagreed
  exact ⟨oneRelation_fit, oneRelation_free, hapart, hagreed, hheld, hsteady'⟩

/-- Commits under read committed over one table: a version that one of them has agreed with stays
until its guard gives the row back, if the commit does not write the row itself. If it does, then
another commit moves the version with just those moves that give the row back after a write. -/
theorem validated_version_moves_iff (hfit : t.Fit []) (hfree : t.Free)
    {obligations : Nat → Obligations} {moves : List (Nat × CommitMove)}
    (hr : (start t (fun _ => .readCommitted) obligations).run moves = r) {o : Obligation}
    (hagreed : (r.parties id).Agreed o) (hheld : o.place ∈ (r.parties id).held.places) :
    ((∀ d ∈ (obligations id).under .readCommitted, d.place = o.place → d.kind.isWrite = false) →
      ∀ later, o.place ∈ ((r.run later).parties id).held.places →
        (r.run later).table.cached? o.place = o.observed) ∧
    ∀ other, other ≠ id →
      ((∃ move, (r.take other move).table.cached? o.place ≠ r.table.cached? o.place) ↔
        (∃ d ∈ (obligations id).under .readCommitted, d.place = o.place ∧ d.kind.isWrite = true) ∧
        (r.parties other).stage = .releasing true ∧
        (r.parties other).held.head? = some ⟨o.relation, o.key, .exclusive⟩) := by
  have hstart := sound_start hfit hfree (fun _ => .readCommitted) obligations
  have hsound := hstart.run moves
  obtain ⟨hdiscipline, hobligations, -⟩ := hstart.parties_run moves id
  rw [hr] at hsound hdiscipline hobligations
  have hduties : (r.parties id).duties = (obligations id).under .readCommitted := by
    rw [Committer.duties, hdiscipline, hobligations]
    rfl
  obtain ⟨v, hv⟩ := Option.isSome_iff_exists.1 (hsound.known id o hagreed)
  rw [← hduties]
  constructor
  · intro hreads later hlater
    have hshield : r.Shielded id o.place := .inl hreads
    have hnow := hsound.steady id o hagreed hheld hshield
    rw [← hnow, hv]
    exact hsound.cached_run later hagreed.2 hlater hshield hv
  · intro other hother
    constructor
    · rintro ⟨move, hmoved⟩
      rcases hsound.cached?_take hv other move with hc | ⟨-, hstage, hhead, -⟩
      · exact absurd (hc.trans hv.symm) hmoved
      · obtain ⟨k, hk⟩ := Committer.exists_holds hheld
        obtain rfl : k = .exclusive := hsound.kind_eq hk (List.mem_of_mem_head? hhead)
        exact ⟨(hsound.orderly id).writes_of_holds hk, hstage, hhead⟩
    · rintro ⟨-, hstage, hhead⟩
      obtain ⟨rest, hrest⟩ := List.head?_eq_some_iff.1 hhead
      refine ⟨.next, ?_⟩
      rw [hsound.cached?_giveBack hstage hrest, hv]
      have hplace : LockRequest.place ⟨o.relation, o.key, .exclusive⟩ = o.place := rfl
      simp [LockTable.released, hplace, hv]

/-- Two transactions under read committed that read and write one row, and have validated. -/
def readModifyWrites : Race :=
  (start oneRelation (fun _ => .readCommitted) fun _ => readsAndWrites).run bothValidate

/-- The first of them is about to give the row back after a commit. -/
def firstEnds : Race :=
  (start oneRelation (fun _ => .readCommitted) fun _ => readsAndWrites).run
    (bothValidate ++ [(1, .finish true)])

theorem firstEnds_moves :
    oneRelation.Fit [] ∧ oneRelation.Free ∧ (firstEnds.parties 2).Agreed readOne ∧
      readOne.place ∈ (firstEnds.parties 2).held.places ∧
      ∃ move, (firstEnds.take 1 move).table.cached? readOne.place ≠
        firstEnds.table.cached? readOne.place := by
  have hagreed : (firstEnds.parties 2).Agreed readOne := by decide +kernel
  have hheld : readOne.place ∈ (firstEnds.parties 2).held.places := by decide +kernel
  have hends : (firstEnds.parties 1).stage = .releasing true ∧
      (firstEnds.parties 1).held.head? = some ⟨"x", 1, .exclusive⟩ := by decide +kernel
  have hwrites : writeOne ∈ readsAndWrites.under .readCommitted := by decide
  have hrace : (start oneRelation (fun _ => .readCommitted) fun _ => readsAndWrites).run
      (bothValidate ++ [(1, .finish true)]) = firstEnds := rfl
  have hmoves := (validated_version_moves_iff oneRelation_fit oneRelation_free hrace hagreed
    hheld).2 1 (by decide)
  exact ⟨oneRelation_fit, oneRelation_free, hagreed, hheld,
    hmoves.2 ⟨⟨writeOne, hwrites, rfl, rfl⟩, hends⟩⟩

/-- Two transactions that have read and written a row both validate its version 1 under read
committed. The first one commits, and moves the version that the second one, which still holds
the row, has validated. Then the second one commits too. -/
theorem read_modify_write_overtakes :
    (∀ id ∈ [1, 2], (readModifyWrites.parties id).stage = .validating [] [] .unasked ∧
        (readModifyWrites.parties id).Agreed readOne) ∧
      readModifyWrites.table.cached? readOne.place = some 1 ∧
      readOne.place ∈ ((readModifyWrites.run firstCommits).parties 2).held.places ∧
      (readModifyWrites.run firstCommits).table.cached? readOne.place = some 2 ∧
      (readModifyWrites.run (firstCommits ++ [(2, .finish true), (2, .next)])).table.cached?
        readOne.place = some 3 := by
  decide +kernel

/-- Commits under both disciplines over one table: a writer under snapshot isolation is granted a
row that nobody holds. Whoever holds the row beside it is a writer under read committed, and any
such writer is granted the row. -/
theorem snapshot_writer_alone_iff (hfit : t.Fit []) (hfree : t.Free)
    {discipline : Nat → Discipline} {obligations : Nat → Obligations}
    {moves : List (Nat × CommitMove)} (hr : (start t discipline obligations).run moves = r)
    (hid : discipline id = .snapshot) :
    (∀ move, ((r.take id move).parties id).Holds p .exclusive →
      (r.parties id).Holds p .exclusive ∨
        ∀ other, other ≠ id → p ∉ ((r.take id move).parties other).held.places) ∧
      ((r.parties id).Holds p .exclusive →
        (∀ other, other ≠ id → ∀ kind, (r.parties other).Holds p kind →
          kind = .exclusive ∧ discipline other = .readCommitted) ∧
        ((∀ other, other ≠ id → p ∉ (r.parties other).held.places) ↔
          ∀ other, discipline other = .readCommitted → ¬(r.parties other).Holds p .exclusive) ∧
        ∀ other rest waits, discipline other = .readCommitted →
          (r.parties other).stage = .locking (⟨p.1, p.2, .exclusive⟩ :: rest) waits →
          ((r.take other .next).parties other).Holds p .exclusive) := by
  have hstart := sound_start hfit hfree discipline obligations
  have hsound := hstart.run moves
  have hdiscipline : ∀ id, ((start t discipline obligations).run moves |>.parties id).discipline =
      discipline id := fun id => (hstart.parties_run moves id).1
  rw [hr] at hsound hdiscipline
  refine ⟨?_, fun hp => ?_⟩
  · intro move hp
    rcases hsound.holds_take hp with hbefore | ⟨-, -, halone⟩
    · exact .inl hbefore
    · right
      intro other hother hmem
      rw [parties_take, if_neg hother] at hmem
      obtain ⟨k, hk⟩ := Committer.exists_holds hmem
      have hjoined := halone other k hk rfl
      rw [hdiscipline, hid] at hjoined
      cases hjoined
  · have hbeside : ∀ other, other ≠ id → ∀ kind, (r.parties other).Holds p kind →
        kind = .exclusive ∧ discipline other = .readCommitted := by
      intro other hother kind hk
      obtain rfl : kind = .exclusive := hsound.kind_eq hk hp
      have hapart := hsound.apart p other id hother hk hp
      rw [hdiscipline, hdiscipline, hid] at hapart
      exact ⟨rfl, hapart.resolve_right nofun⟩
    refine ⟨hbeside, ⟨?_, ?_⟩, ?_⟩
    · intro halone other ho hk
      have hother : other ≠ id := by
        rintro rfl
        rw [hid] at ho
        cases ho
      exact halone other hother hk.mem_places
    · intro hnone other hother hmem
      obtain ⟨k, hk⟩ := Committer.exists_holds hmem
      obtain ⟨rfl, ho⟩ := hbeside other hother k hk
      exact hnone other ho hk
    · intro other rest waits ho hstage
      obtain ⟨n, hcount⟩ := hsound.hold?_eq hp
      have hgranted := LockTable.attempt_writers hcount other
      rw [parties_take, if_pos rfl]
      simp only [Committer.step, hstage]
      apply Committer.holds_attempt
      rw [hdiscipline, ho]
      exact hgranted

/-- A writer under snapshot isolation takes the row 1, and a writer under read committed comes
to ask for it. -/
def snapshotFirst : Race :=
  (start oneRelation (fun id => if id = 1 then .snapshot else .readCommitted)
    fun _ => readsAndWrites).run (nexts 1 2 ++ nexts 2 1)

theorem snapshotFirst_alone_iff :
    oneRelation.Fit [] ∧ oneRelation.Free ∧
      (snapshotFirst.parties 1).Holds readOne.place .exclusive ∧
      ((snapshotFirst.take 2 .next).parties 2).Holds readOne.place .exclusive := by
  have hwriter : (snapshotFirst.parties 1).Holds readOne.place .exclusive := by decide +kernel
  have hstage : (snapshotFirst.parties 2).stage = .locking [⟨"x", 1, .exclusive⟩] 0 := by
    decide +kernel
  have hrace : (start oneRelation (fun id => if id = 1 then .snapshot else .readCommitted)
      fun _ => readsAndWrites).run (nexts 1 2 ++ nexts 2 1) = snapshotFirst := rfl
  obtain ⟨-, halone⟩ := snapshot_writer_alone_iff (p := readOne.place) oneRelation_fit
    oneRelation_free hrace (if_pos rfl)
  exact ⟨oneRelation_fit, oneRelation_free, hwriter, (halone hwriter).2.2 2 [] 0 rfl hstage⟩

/-- A writer under read committed is granted a row that a writer under snapshot isolation
holds. -/
theorem readCommitted_writer_joins :
    ((snapshotFirst.take 2 .next).parties 1).discipline = .snapshot ∧
      ((snapshotFirst.take 2 .next).parties 1).Holds readOne.place .exclusive ∧
      ((snapshotFirst.take 2 .next).parties 2).Holds readOne.place .exclusive := by
  decide +kernel

end Race

end LiveIsolation
