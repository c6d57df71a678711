import LiveIsolation.Proofs.Store.Clients

/-!
# Versions that are told ahead

A write is told the version that its commit is expected to give the row, and the writes of a
transaction to one row are all told the version of the first. The commit counts on from what is
committed by then. So the version it gives is ahead of the version that was told by as many values
as the row has been given since the transaction wrote it first, and the two agree exactly if there
is none (`Chronicle.told_version_iff`).
-/

namespace LiveIsolation

namespace StorePast

variable {client : Nat} {p : Place} {row : Row} {earlier : StorePast} {e : StoreEvent}

/-- How many values a row has been given since the open transaction of a client wrote it first. -/
def overtaken (client : Nat) (p : Place) : StorePast → Nat
  | [] => 0
  | e :: earlier =>
    if hasWritten client p earlier then
      overtaken client p earlier + (given? p earlier e).toList.length
    else 0

/-- A row that the transaction has not written before is not overtaken by its first write. -/
theorem overtaken_of_unwritten (h : (unsettled client earlier).lookup p = none) :
    overtaken client p (e :: earlier) = 0 := by
  rw [overtaken, hasWritten, h]
  rfl

theorem overtaken_of_written {x : Place × Row} (h : x ∈ unsettled client earlier) :
    overtaken client x.1 (e :: earlier) =
      overtaken client x.1 earlier + (given? x.1 earlier e).toList.length := by
  obtain ⟨row, hrow⟩ := Ordered.exists_lookup_of_mem h
  rw [overtaken, hasWritten, hrow]
  rfl

/-- A write is unsettled until its client commits or rolls back. -/
theorem mem_unsettled {later : StorePast}
    (h : ∀ e ∈ later, e ≠ .committed client ∧ e ≠ .rolledBack client) :
    (p, row) ∈ unsettled client (later ++ .wrote client p row :: earlier) := by
  induction later with
  | nil =>
      rw [List.nil_append, unsettled_wrote, if_pos rfl]
      exact List.mem_cons_self
  | cons e later ih =>
      have hrest := ih fun e' he' => h e' (List.mem_cons_of_mem e he')
      obtain ⟨hcommitted, hrolledBack⟩ := h e List.mem_cons_self
      cases e with
      | seeded place value => exact hrest
      | wrote i place row' =>
          rw [List.cons_append, unsettled_wrote]
          split
          · exact List.mem_cons_of_mem _ hrest
          · exact hrest
      | committed i =>
          rw [List.cons_append, unsettled_committed, if_neg fun hi => hcommitted (congrArg _ hi)]
          exact hrest
      | rolledBack i =>
          rw [List.cons_append, unsettled_rolledBack, if_neg fun hi => hrolledBack (congrArg _ hi)]
          exact hrest

/-- Every unsettled write was told the version that the next value of its row has, less the values
that have overtaken the transaction. -/
def Told (past : StorePast) : Prop :=
  ∀ client x, x ∈ unsettled client past →
    (values x.1 past).length + 1 = x.2.version + overtaken client x.1 past

/-- A write that was unsettled before an event has been overtaken by the value that the event
gives its row. -/
theorem Told.overtaken_cons (h : Told earlier) (e : StoreEvent) {x : Place × Row}
    (hx : x ∈ unsettled client earlier) :
    (values x.1 (e :: earlier)).length + 1 = x.2.version + overtaken client x.1 (e :: earlier) := by
  have hold := h client x hx
  rw [values_cons, List.length_append, overtaken_of_written hx]
  omega

/-- Where an event leaves no new write unsettled, all were told their versions. -/
theorem Told.of_subset (h : Told earlier)
    (hsub : ∀ i, unsettled i (e :: earlier) ⊆ unsettled i earlier) : Told (e :: earlier) :=
  fun i _ hx => h.overtaken_cons e (hsub i hx)

/-- A write is told one version more than its row has been given values, if it is the first of the
row, and what the first one was told otherwise. -/
theorem Told.wrote (h : Told earlier)
    (hrow : row.version =
      ((unsettled client earlier).lookup p).elim ((values p earlier).length + 1) (·.version)) :
    Told (.wrote client p row :: earlier) := by
  intro i x hx
  rw [unsettled_wrote] at hx
  split at hx
  case isFalse => exact h.overtaken_cons _ hx
  case isTrue hi =>
    subst hi
    rcases List.mem_cons.1 hx with rfl | hx
    · cases hlookup : (unsettled client earlier).lookup p with
      | none =>
          -- the first write of the row, which nothing has overtaken yet
          rw [hlookup] at hrow
          change _ = row.version + overtaken client p _
          rw [overtaken_of_unwritten hlookup, hrow]
          rfl
      | some first =>
          -- a later one, which is as far behind as the last one before it
          rw [hlookup] at hrow
          change _ = row.version + _
          rw [hrow]
          exact h.overtaken_cons _ (Ordered.mem_of_lookup hlookup)
    · exact h.overtaken_cons _ hx

end StorePast

namespace Chronicle

open StorePast

theorem told_taken {c c' : Clients} {past : StorePast} {event : Option StoreEvent}
    (hfaithful : Faithful ⟨c, past⟩) (h : Told past) (htaken : c.Taken event c') :
    Told (event.toList ++ past) := by
  cases htaken with
  | quiet store hrows => exact h
  | opened store connection hrows hwrites => exact h
  | seeded place value => exact h.of_subset fun i => List.Subset.refl _
  | committed client connection store hclient hrows =>
      refine h.of_subset fun i => ?_
      rw [unsettled_committed]
      split
      · exact List.nil_subset _
      · exact List.Subset.refl _
  | rolledBack client connection hclient =>
      refine h.of_subset fun i => ?_
      rw [unsettled_rolledBack]
      split
      · exact List.nil_subset _
      · exact List.Subset.refl _
  | wrote client connection place value hclient =>
      refine h.wrote ?_
      have hpending : connection.pending? place = (unsettled client past).lookup place :=
        hfaithful.pending client connection hclient place
      have hrow : c.store.row? place = StorePast.row? place past := hfaithful.row place
      rw [hpending, hrow, version_row?]

theorem told_run (keys : KeyRule) (turns : List StoreTurn) : Told (run keys turns).past := by
  have hfold : ∀ h : Chronicle, h.Faithful → Told h.past → Told (turns.foldl take h).past := by
    induction turns with
    | nil => exact fun h _ hh => hh
    | cons turn rest ih =>
        exact fun h hfaithful htold => ih _ (hfaithful.take turn)
          (told_taken hfaithful htold (h.clients.taken_take turn))
  exact hfold _ (faithful_empty keys) (fun _ _ hx => nomatch hx)

/-- A transaction has written a row and was told a version. If it commits, the version of the row
is ahead of this one by the values that the row has been given since the transaction wrote it
first; so it is the one that was told exactly if there is none. -/
theorem told_version_iff (keys : KeyRule) (turns : List StoreTurn) {client version : Nat}
    {p : Place} {value : Value} {later earlier : StorePast}
    (hpast : (run keys turns).past = later ++ .wrote client p ⟨value, version⟩ :: earlier)
    (hopen : ∀ e ∈ later, e ≠ .committed client ∧ e ≠ .rolledBack client)
    (hdone : ((run keys turns).clients.take (.commit client)).1 = .done) :
    ∃ row, ((run keys turns).take (.commit client)).clients.store.row? p = some row ∧
      row.version = version + overtaken client p (run keys turns).past ∧
      (row.version = version ↔ overtaken client p (run keys turns).past = 0) := by
  have hfaithful := faithful_run keys turns
  have htold := told_run keys turns
  generalize run keys turns = h at *
  have hwrote : (p, ⟨value, version⟩) ∈ unsettled client h.past := by
    rw [hpast]
    exact mem_unsettled hopen
  obtain ⟨last, hlast⟩ := Ordered.exists_lookup_of_mem hwrote
  have hcommitted : (h.take (.commit client)).past = .committed client :: h.past := by
    simp only [take, Clients.event?, hdone]
    rfl
  have hrow : (h.take (.commit client)).clients.store.row? p =
      some ⟨last.value, (values p h.past).length + 1⟩ := by
    rw [(hfaithful.take (.commit client)).row p, hcommitted, row?_cons, given?, hlast, version_row?]
    rfl
  have hversion := htold client (p, ⟨value, version⟩) hwrote
  refine ⟨_, hrow, hversion, ?_⟩
  rw [hversion]
  exact Nat.add_eq_left

/-- Two clients write a row before either has committed it, and both are told version one. The
first of them commits. -/
def overtakenWrite : List StoreTurn :=
  [.connect, .connect, .execute 0 writeRow [.int 50, .int 1], .execute 1 writeRow [.int 40, .int 1],
    .commit 0]

theorem overtakenWrite_version :
    (run RowKey.standard overtakenWrite).past =
        [.committed 0] ++ .wrote 1 ("x", 1) ⟨.int 40, 1⟩ :: [.wrote 0 ("x", 1) ⟨.int 50, 1⟩] ∧
      ((run RowKey.standard overtakenWrite).clients.take (.commit 1)).1 = .done ∧
      overtaken 1 ("x", 1) (run RowKey.standard overtakenWrite).past = 1 ∧
      ∃ row, ((run RowKey.standard overtakenWrite).take (.commit 1)).clients.store.row? ("x", 1) =
        some row ∧ row.version = 2 := by
  have hpast : (run RowKey.standard overtakenWrite).past =
      [.committed 0] ++ .wrote 1 ("x", 1) ⟨.int 40, 1⟩ :: [.wrote 0 ("x", 1) ⟨.int 50, 1⟩] := by
    decide +kernel
  have hdone : ((run RowKey.standard overtakenWrite).clients.take (.commit 1)).1 = .done := rfl
  have hovertaken : overtaken 1 ("x", 1) (run RowKey.standard overtakenWrite).past = 1 := by
    decide +kernel
  obtain ⟨row, hrow, hversion, -⟩ :=
    told_version_iff RowKey.standard overtakenWrite hpast (by decide) hdone
  rw [hovertaken] at hversion
  exact ⟨hpast, hdone, hovertaken, row, hrow, hversion⟩

/-- The other client was told version one too, but its commit gives the row version two. -/
theorem overtakenWrite_told_one :
    (run RowKey.standard overtakenWrite).past =
        [.committed 0] ++ .wrote 1 ("x", 1) ⟨.int 40, 1⟩ :: [.wrote 0 ("x", 1) ⟨.int 50, 1⟩] ∧
      ((run RowKey.standard overtakenWrite).clients.take (.commit 1)).1 = .done ∧
      ((run RowKey.standard overtakenWrite).take (.commit 1)).clients.store.row? ("x", 1) =
        some ⟨.int 40, 2⟩ := by
  decide +kernel

end Chronicle

end LiveIsolation
