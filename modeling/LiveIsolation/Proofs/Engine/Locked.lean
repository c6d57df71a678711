import LiveIsolation.Proofs.Engine.Answers
import LiveIsolation.Proofs.Engine.Ran
import LiveIsolation.Proofs.LockTable.Releases

/-!
# What a commit locks

A commit follows the protocol that is required when it starts. Where this asks for validation, the
commit asks for the rows of a plan: it gets all of them beside those who hold them, or keeps none
(`Engine.Takes`). Otherwise it leaves the locks alone, and at most makes later versions known of
rows that its transaction has written (`Engine.Skips`). The rows of the plan are those of the
statements that the transaction has run and that are marked for the required discipline, whatever
was required before: a switch costs an open transaction no validation
(`Engine.commit_locks_what_ran`).
-/

namespace LiveIsolation

namespace LockTable

/-- No lock is taken or given back from one table to the other. At most, later versions of some
rows have become known. -/
structure Spares (t t' : LockTable) (rows : Place → Prop) : Prop where
  hold : t'.hold? = t.hold?
  releases : t'.releases = t.releases
  cached : ∀ p, t'.cached? p = t.cached? p ∨
    rows p ∧ ∃ v, t'.cached? p = some v ∧ ∀ k, t.cached? p = some k → k < v

theorem Spares.refl (t : LockTable) (rows : Place → Prop) : t.Spares t rows :=
  ⟨rfl, rfl, fun _ => .inl rfl⟩

theorem releases_updateVersion (t : LockTable) (p : Place) (v : Nat) :
    (t.updateVersion p.1 p.2 v).2.releases = t.releases :=
  (t.serves_serve (c := ⟨p.1, p.2, .updateVersion v⟩) rfl).releases

end LockTable

namespace Engine

variable {e : Engine} {w : Worker} {id : Nat} {t : OpenTransaction} {d : Discipline}
  {turn : Turn} {locks : LockTable} {guard : Option Guard} {x : List EngineEvent × Engine}

/-- The locks when the store has failed or committed a transaction with the locks of a guard. -/
inductive Closes (locks : LockTable) (guard : Option Guard) (written : List (Place × Nat)) :
    LockTable → Prop where
  | failed : Closes locks guard written (givenBack locks guard)
  | committed : Closes locks guard written (settled locks guard written).2

/-- What a commit makes of the lock table that takes the locks of the plan of its transaction. -/
inductive Takes (e : Engine) (w : Worker) (t : OpenTransaction) (d : Discipline)
    (x : List EngineEvent × Engine) : Prop where
  /-- A row is refused, and none is kept. -/
  | refused (conflict : Conflict)
    (hacquire : Guard.acquire e.locks (t.obligations.plan d) w.transaction d =
      (.ok (⟨w.transaction, []⟩, [conflict]), x.2.locks))
    (hhold : x.2.locks.hold? = e.locks.hold?)
  /-- All rows are granted. They are held beside their holders until the commit has ended, which
  gives them back, and then every row is held as before. -/
  | ended (taken checked : LockTable)
    (hacquire : Guard.acquire e.locks (t.obligations.plan d) w.transaction d =
      (.ok (⟨w.transaction, t.obligations.plan d⟩, []), taken))
    (hreaches : taken.Reaches checked) (hbeside : e.locks.Beside checked (t.obligations.plan d))
    (hcloses : Closes checked (some ⟨w.transaction, t.obligations.plan d⟩) t.written x.2.locks)
    (hhold : x.2.locks.hold? = e.locks.hold?)
  /-- All rows are granted, and the commit is held up at the gate of its link with them. -/
  | held (taken : LockTable)
    (hacquire : Guard.acquire e.locks (t.obligations.plan d) w.transaction d =
      (.ok (⟨w.transaction, t.obligations.plan d⟩, []), taken))
    (hreaches : taken.Reaches x.2.locks)
    (hbeside : e.locks.Beside x.2.locks (t.obligations.plan d))
    (hworker : x.2.worker? w.id =
      some { w with blocked := some (.atGate (some ⟨w.transaction, t.obligations.plan d⟩)) })

/-- What a commit makes of the lock table that takes no locks. -/
inductive Skips (e : Engine) (w : Worker) (rows : Place → Prop) (x : List EngineEvent × Engine) :
    Prop where
  | ended (hspares : e.locks.Spares x.2.locks rows)
  /-- The commit is held up at the gate of its link, and holds nothing there. -/
  | held (hlocks : x.2.locks = e.locks) (link : Link)
    (hworker : x.2.worker? w.id = some { w with link, blocked := some (.atGate none) })

section Closes

variable {known : List String} {before after : LockTable} {written : List (Place × Nat)}
  {rows : Place → Prop}

/-- Every row is held as it was before the locks of the guard were taken. -/
theorem Closes.hold (h : Closes locks guard written after) (hlocks : locks.Whole known)
    (hbefore : before.Whole known) (hguarded : GuardedBeside before locks guard)
    (hwritten : ∀ x ∈ written, x.1.1 ∈ known) : after.hold? = before.hold? := by
  cases h with
  | failed => exact (hguarded.givenBack_eq hlocks hbefore).1
  | committed =>
      obtain ⟨locks', hsettled, hhold⟩ := hguarded.settled_eq hlocks hbefore hwritten
      rw [hsettled]
      exact hhold

theorem releases_refresh (locks : LockTable) (written : List (Place × Nat)) :
    (refresh locks written).2.releases = locks.releases := by
  induction written generalizing locks with
  | nil => rfl
  | cons x rest ih =>
      obtain ⟨p, v⟩ := x
      have hfirst := locks.releases_updateVersion p v
      simp only [refresh]
      generalize locks.updateVersion p.1 p.2 v = y at hfirst
      obtain ⟨answer, locks'⟩ := y
      cases answer with
      | ok u => exact (ih locks').trans hfirst
      | error f => exact hfirst

/-- Making the versions of written rows known leaves the locks alone. -/
theorem spares_refresh (h : locks.Fit known) (hwritten : ∀ x ∈ written, x.1.1 ∈ known)
    (hrows : ∀ x ∈ written, rows x.1) : locks.Spares (refresh locks written).2 rows := by
  obtain ⟨locks', hrefresh, -, hhold, hcached⟩ := refresh_views h hwritten
  refine ⟨?_, releases_refresh locks written, fun p => ?_⟩
  · rw [hrefresh]
    exact hhold
  · rw [hrefresh, hcached]
    rcases raisedAll_cases (locks.cached? p) written p with hsame | ⟨v, hv, hlast, hlater⟩
    · exact .inl hsame
    · exact .inr ⟨hrows (p, v) hv, v, hlast, hlater⟩

/-- Without a guard, the locks are left alone. -/
theorem Closes.spares (h : Closes locks none written after) (hfit : locks.Fit known)
    (hwritten : ∀ x ∈ written, x.1.1 ∈ known) (hrows : ∀ x ∈ written, rows x.1) :
    locks.Spares after rows := by
  cases h with
  | failed => exact .refl locks rows
  | committed => exact spares_refresh hfit hwritten hrows

/-- No lock is touched at the boundary. -/
theorem locks_of_crossed {e' : Engine} (h : e.Crossed w e') : e'.locks = e.locks := by
  obtain ⟨barrier, levels, protocol, blocked, rfl, -⟩ := h
  rfl

theorem closes_concludeDuring (e : Engine) (w : Worker) (t : OpenTransaction)
    (guard : Option Guard) (unavailable : Bool) :
    Closes e.locks guard t.written (e.concludeDuring w t guard unavailable).2.1.locks := by
  rcases e.concludeDuring_cases w t guard unavailable with ⟨f, -, h⟩ | h
  · rw [h]
    exact .failed
  · rw [h]
    exact .committed

/-- A commit that comes to the gate of its link ends, or is held up there with its locks. -/
theorem comeToGate_closes (e : Engine) (w : Worker) (t : OpenTransaction) (guard : Option Guard) :
    Closes e.locks guard t.written (e.comeToGate w t guard).2.locks ∨
      e.comeToGate w t guard = ([], e.put { w with blocked := some (.atGate guard) }) := by
  rcases e.comeToGate_cases w t guard with ⟨permits, -, hgate⟩ | hgate
  · obtain ⟨result, e₁, w₁, hconclude, hcommit⟩ :=
      e.concludeDuring_const { w with link.permits := permits } t guard
    have hcloses := e.closes_concludeDuring { w with link.permits := permits } t guard
      e.store.unavailable
    rw [hconclude] at hcloses
    rw [hgate, hcommit, locks_of_crossed (passBoundary_crossed e₁ w₁ .commit result)]
    exact .inl hcloses
  · exact .inr hgate

end Closes

/-- What a commit comes to that has locked and validated: it is turned away, or it comes to the
gate of its link and to the store with the locks that it has been granted. -/
inductive Proceeds (w : Worker) (t : OpenTransaction) :
    Except Fault Guard × Engine → List EngineEvent × Engine → Prop where
  | turnedAway (f : Fault) (e : Engine) (x : List EngineEvent × Engine)
    (hlocks : x.2.locks = e.locks) : Proceeds w t (.error f, e) x
  | closes (guard : Guard) (e : Engine) (x : List EngineEvent × Engine)
    (hcloses : Closes e.locks (some guard) t.written x.2.locks) : Proceeds w t (.ok guard, e) x
  | waits (guard : Guard) (e : Engine) :
    Proceeds w t (.ok guard, e) ([], e.put { w with blocked := some (.atGate (some guard)) })

section Commits

/-- A commit that the protocol asks to validate. -/
theorem proceeds_of_commits (hw : e.worker? id = some w) (ht : w.current = some t)
    (hfree : w.blocked = none) (hd : e.barrier.required.discipline? = some d)
    (hturn : turn.Commits id w) :
    ∃ down, Proceeds w t (e.lockAndValidateDuring w t d down) (e.turn turn) := by
  cases hturn with
  | plain =>
      refine ⟨fun _ => e.store.unavailable, ?_⟩
      rw [turn_finish hw hfree, lockAndValidateDuring_const]
      simp only [startCommit, ht, hd]
      generalize e.lockAndValidate w t d = y
      obtain ⟨answer, e₁⟩ := y
      cases answer with
      | error f =>
          have hcrossed := passBoundary_crossed (e₁.abandon w).1 (e₁.abandon w).2 .commit (.error f)
          exact .turnedAway f e₁ _ (locks_of_crossed (e := (e₁.abandon w).1) hcrossed)
      | ok guard =>
          rcases e₁.comeToGate_closes w t (some guard) with hcloses | hwaits
          · exact .closes guard e₁ _ hcloses
          · dsimp only
            rw [hwaits]
            exact .waits guard e₁
  | during down downAtBoundary hgate =>
      refine ⟨down, ?_⟩
      rw [turn_commit hw hfree hgate]
      simp only [startCommitDuring, ht, commitDuring, hd]
      generalize e.lockAndValidateDuring w t d down = y
      obtain ⟨answer, e₁⟩ := y
      cases answer with
      | error f =>
          have hcrossed := passBoundaryWhen_crossed (e₁.abandon w).1 (e₁.abandon w).2 .commit
            (.error f) downAtBoundary
          exact .turnedAway f e₁ _ (locks_of_crossed (e := (e₁.abandon w).1) hcrossed)
      | ok guard =>
          refine .closes guard e₁ _ ?_
          dsimp only
          rw [locks_of_crossed (passBoundaryWhen_crossed ..)]
          exact e₁.closes_concludeDuring w t (some guard) _

/-- A commit that locks and validates takes the locks of the plan of its transaction. -/
theorem Steady.takes (h : e.Steady) (hwithin : t.Within e.workload.relations) {down : Nat → Bool}
    (hx : Proceeds w t (e.lockAndValidateDuring w t d down) x) : Takes e w t d x := by
  have hlocking := lockAndValidateDuring_locking (w := w) h.whole (hwithin.obligations d) down
  generalize e.lockAndValidateDuring w t d down = y at hlocking hx
  -- granted rows are given back as they are, whether validation, the store or nobody objects
  have hback : ∀ {taken checked after : LockTable},
      Guard.acquire e.locks (t.obligations.plan d) w.transaction d =
        (.ok (⟨w.transaction, t.obligations.plan d⟩, []), taken) →
      taken.Reaches checked → e.locks.Beside checked (t.obligations.plan d) →
      Closes checked (some ⟨w.transaction, t.obligations.plan d⟩) t.written after →
        after.hold? = e.locks.hold? := by
    intro taken checked after hacquire hreaches hbeside hcloses
    have htaken := e.locks.reaches_guardAcquire (t.obligations.plan d) w.transaction d
    rw [hacquire] at htaken
    exact hcloses.hold (h.whole.of_reaches (htaken.trans hreaches)) h.whole
      (.held _ hbeside (LockPlan.nodup_places_ofObligations _)) hwithin.written
  cases hlocking with
  | refused f conflict locks counters hacquire hhold _ _ _ =>
      cases hx with
      | turnedAway _ _ _ hlocks =>
          apply Takes.refused conflict
          · rw [hlocks]
            exact hacquire
          · rw [hlocks]
            exact hhold
  | rejected f taken checked counters hacquire hreaches _ hbeside _ _ _ =>
      cases hx with
      | turnedAway _ _ _ hlocks =>
          have hcloses : Closes checked (some ⟨w.transaction, t.obligations.plan d⟩) t.written
              x.2.locks := hlocks ▸ .failed
          exact .ended taken checked hacquire hreaches hbeside hcloses
            (hback hacquire hreaches hbeside hcloses)
  | passed taken checked hacquire hreaches _ hbeside _ =>
      cases hx with
      | closes _ _ _ hcloses =>
          exact .ended taken checked hacquire hreaches hbeside hcloses
            (hback hacquire hreaches hbeside hcloses)
      | waits =>
          apply Takes.held taken hacquire hreaches hbeside
          rw [worker?_put, if_pos rfl]

variable {rows : Place → Prop}

/-- A commit that comes to the gate of its link without a guard leaves the locks alone. -/
theorem Steady.skips_comeToGate (h : e.Steady) (hwithin : t.Within e.workload.relations)
    (hrows : ∀ x ∈ t.written, rows x.1) (link : Link) :
    Skips e w rows (e.comeToGate { w with link, blocked := none } t none) := by
  rcases e.comeToGate_closes { w with link, blocked := none } t none with hcloses | hwaits
  · exact .ended (hcloses.spares h.whole.fit hwithin.written hrows)
  · rw [hwaits]
    refine .held rfl link ?_
    rw [worker?_put]
    exact if_pos rfl

/-- A commit that the protocol does not ask to validate. -/
theorem Steady.skips_of_commits (h : e.Steady) (hw : e.worker? id = some w)
    (ht : w.current = some t) (hfree : w.blocked = none)
    (hd : e.barrier.required.discipline? = none) (hrows : ∀ x ∈ t.written, rows x.1)
    (hturn : turn.Commits id w) : Skips e w rows (e.turn turn) := by
  have hwithin := (h.tidy id w hw).within t ht
  cases hturn with
  | plain =>
      have hsame : { w with link := w.link, blocked := none } = w := by rw [← hfree]
      have hskips := h.skips_comeToGate (w := w) hwithin hrows w.link
      rw [turn_finish hw hfree]
      simp only [Engine.startCommit, ht, hd]
      rwa [hsame] at hskips
  | during down downAtBoundary hgate =>
      have hcloses := e.closes_concludeDuring w t none (down 0)
      refine .ended ?_
      rw [turn_commit hw hfree hgate]
      simp only [Engine.startCommitDuring, ht, Engine.commitDuring, hd]
      rw [locks_of_crossed (passBoundaryWhen_crossed ..)]
      exact hcloses.spares h.whole.fit hwithin.written hrows

/-- The gate is opened for a commit that holds nothing there. -/
theorem Steady.skips_openGate (h : e.Steady) (hw : e.worker? id = some w)
    (ht : w.current = some t) (hblocked : w.blocked = some (.atGate none))
    (hrows : ∀ x ∈ t.written, rows x.1) :
    Skips e w rows (e.turn (.plain (.openGate id))) := by
  have hskips := h.skips_comeToGate (w := w) ((h.tidy id w hw).within t ht) hrows w.link.openGate
  simp only [Engine.turn, occur, Engine.openGate, hw]
  split
  · rename_i guard t' hgate hcurrent
    cases hblocked.symm.trans hgate
    cases ht.symm.trans hcurrent
    exact hskips
  · rename_i hnot
    exact absurd ht (hnot none t hblocked)

end Commits

/-- Whatever happens to an engine, switches included, a statement that is marked has a row when it
is run, and the plan of an open transaction that is not sampled asks under each discipline for
exactly the rows of the statements that the transaction has run and that are marked for it. A commit
takes the locks of the plan for the discipline that is required when it starts. What was required
when the statements were run does not matter, nor does the protocol that the worker runs under.
Where no discipline is required, the commit takes no lock and gives none back, at once or when its
gate is opened; at most it makes later versions known of rows that the transaction has written. -/
theorem commit_locks_what_ran {workload : Workload} {config : EngineConfig} {keys : KeyRule}
    (hcreate : create workload config keys = .ok e) (turns : List Turn)
    (hworker : (e.through turns).worker? id = some w) (ht : w.current = some t)
    (hsampled : t.sampled = false) :
    (∀ r ∈ e.ran id turns, r.statement.validatedAny = true → ∃ p, r.row keys = .ok p) ∧
    (∀ d, (t.obligations.plan d).places.Nodup ∧
      ∀ p, p ∈ (t.obligations.plan d).places ↔ RunStatement.Marked keys (e.ran id turns) d p) ∧
    (∀ d, (e.through turns).barrier.required.discipline? = some d → w.blocked = none →
      ∀ turn, turn.Commits id w →
        Takes (e.through turns) w t d ((e.through turns).turn turn)) ∧
    ((e.through turns).barrier.required.discipline? = none → w.blocked = none →
      ∀ turn, turn.Commits id w →
        Skips (e.through turns) w (RunStatement.Wrote keys (e.ran id turns))
          ((e.through turns).turn turn)) ∧
    (w.blocked = some (.atGate none) →
      Skips (e.through turns) w (RunStatement.Wrote keys (e.ran id turns))
        ((e.through turns).turn (.plain (.openGate id)))) := by
  have hsteady := (steady_create hcreate).through turns
  have haccounts := accounts_through hcreate turns hworker ht hsampled
  refine ⟨haccounts.placed, ?_, ?_, ?_, ?_⟩
  · intro d
    constructor
    · exact LockPlan.nodup_places_ofObligations _
    · intro p
      calc p ∈ (t.obligations.plan d).places ↔ ∃ o ∈ t.obligations.under d, o.place = p :=
            LockPlan.mem_places_ofObligations
        _ ↔ RunStatement.Marked keys (e.ran id turns) d p := haccounts.obligations d p
  · intro d hd hfree turn hturn
    obtain ⟨down, hproceeds⟩ := proceeds_of_commits hworker ht hfree hd hturn
    exact hsteady.takes ((hsteady.tidy id w hworker).within t ht) hproceeds
  · intro hd hfree turn hturn
    exact hsteady.skips_of_commits hworker ht hfree hd haccounts.written hturn
  · intro hblocked
    exact hsteady.skips_openGate hworker ht hblocked haccounts.written

/-- A transaction of the first template writes the row 1 and reads the row 2 while no validation is
required. -/
def runUnvalidated : List Turn :=
  [.plain (.action (.connect 1)), .plain (.action (.execute 1 "a" 0 [.int 1, .int 5])),
    .plain (.action (.execute 1 "a" 1 [.int 2]))]

/-- Then a switch to snapshot isolation begins. -/
def runThenSwitching : List Turn :=
  runUnvalidated ++ [.plain (.action (.request .snapshot)), .plain (.action .beginRequest)]

/-- A worker can be asked to commit a transaction that is not sampled, and the commit does not leave
it at a gate. -/
def commitsFreely (e : Engine) (id : Nat) (p : Worker → OpenTransaction → Bool) : Bool :=
  ((e.worker? id).any fun w =>
    w.id == id && w.blocked.isNone && w.current.any fun t => !t.sampled && p w t) &&
  ((e.turn (.plain (.action (.finish id .commit)))).2.worker? id).all fun x =>
    match x.blocked with
    | some (.atGate _) => false
    | _ => true

theorem exists_of_commitsFreely {p : Worker → OpenTransaction → Bool}
    (h : e.commitsFreely id p = true) :
    ∃ w t, e.worker? id = some w ∧ w.id = id ∧ w.current = some t ∧ t.sampled = false ∧
      w.blocked = none ∧ p w t = true ∧
      ∀ x guard, (e.turn (.plain (.action (.finish id .commit)))).2.worker? id = some x →
        x.blocked ≠ some (.atGate guard) := by
  obtain ⟨h, hafter⟩ := Bool.and_eq_true_iff.1 h
  obtain ⟨w, hw, h⟩ := (Option.any_eq_true _ _).1 h
  obtain ⟨h, hcurrent⟩ := Bool.and_eq_true_iff.1 h
  obtain ⟨hid, hfree⟩ := Bool.and_eq_true_iff.1 h
  obtain ⟨t, ht, h⟩ := (Option.any_eq_true _ _).1 hcurrent
  obtain ⟨hsampled, hp⟩ := Bool.and_eq_true_iff.1 h
  refine ⟨w, t, hw, beq_iff_eq.1 hid, ht, Bool.not_eq_eq_eq_not.1 hsampled,
    Option.isNone_iff_eq_none.1 hfree, hp, fun x guard hx hgate => ?_⟩
  rw [hx, Option.all_some, hgate] at hafter
  cases hafter

/-- The row that the transaction has read. -/
def readPlan : LockPlan := [⟨"y", 2, .shared⟩]

/-- All rows of the plan are granted. -/
def grantsRead (e : Engine) (w : Worker) (t : OpenTransaction) : Bool :=
  t.obligations.plan .snapshot == readPlan &&
    match (Guard.acquire e.locks readPlan w.transaction .snapshot).1 with
    | .ok (_, conflicts) => conflicts.isEmpty
    | .error _ => false

/-- Before the switch the commit takes no locks. After the switch has begun, it is granted the row
that the transaction has read, and gives it back: only the read is dangerous under snapshot
isolation. -/
theorem aliased_commit_locks_read :
    ∃ workload e w t, (Registry.run aliased).analyze = .ok workload ∧
      create workload (.ofProtocol .serializable) RowKey.standard = .ok e ∧
      (e.through runThenSwitching).worker? 1 = some w ∧ w.current = some t ∧ t.sampled = false ∧
      (e.ran 1 runThenSwitching).map
          (fun r => (r.statement.validated .snapshot, (r.row RowKey.standard).toOption)) =
        [(false, some ("y", 1)), (true, some ("y", 2))] ∧
      t.obligations.plan .snapshot = readPlan ∧
      (∀ p, p ∈ readPlan.places ↔
        RunStatement.Marked RowKey.standard (e.ran 1 runThenSwitching) .snapshot p) ∧
      (∃ taken checked,
        Guard.acquire (e.through runThenSwitching).locks readPlan w.transaction .snapshot =
            (.ok (⟨w.transaction, readPlan⟩, []), taken) ∧
          taken.Reaches checked ∧ (e.through runThenSwitching).locks.Beside checked readPlan ∧
          Closes checked (some ⟨w.transaction, readPlan⟩) t.written
            ((e.through runThenSwitching).turn (.plain (.action (.finish 1 .commit)))).2.locks) ∧
      ((e.through runThenSwitching).turn (.plain (.action (.finish 1 .commit)))).2.locks.hold? =
        (e.through runThenSwitching).locks.hold? ∧
      (e.through runUnvalidated).locks.Spares
        ((e.through runUnvalidated).turn (.plain (.action (.finish 1 .commit)))).2.locks
        (RunStatement.Wrote RowKey.standard (e.ran 1 runUnvalidated)) := by
  obtain ⟨workload, hanalyze, e, hcreate, hafter, hsnapshot, hran, hbefore, hnone⟩ :
      ∃ workload, (Registry.run aliased).analyze = .ok workload ∧
        ∃ e, create workload (.ofProtocol .serializable) RowKey.standard = .ok e ∧
          (e.through runThenSwitching).commitsFreely 1
              (e.through runThenSwitching).grantsRead = true ∧
          (e.through runThenSwitching).barrier.required.discipline? = some .snapshot ∧
          (e.ran 1 runThenSwitching).map
              (fun r => (r.statement.validated .snapshot, (r.row RowKey.standard).toOption)) =
            [(false, some ("y", 1)), (true, some ("y", 2))] ∧
          (e.through runUnvalidated).commitsFreely 1 (fun _ _ => true) = true ∧
          (e.through runUnvalidated).barrier.required.discipline? = none :=
    ⟨_, rfl, exists_create _ _ _ _ (by decide +kernel)⟩
  obtain ⟨w, t, hw, hid, ht, hsampled, hfree, hgrants, hpasses⟩ := exists_of_commitsFreely hafter
  obtain ⟨w₀, t₀, hw₀, hid₀, ht₀, hsampled₀, hfree₀, -, hpasses₀⟩ := exists_of_commitsFreely hbefore
  obtain ⟨hread, hgranted⟩ := Bool.and_eq_true_iff.1 hgrants
  have hread : t.obligations.plan .snapshot = readPlan := beq_iff_eq.1 hread
  obtain ⟨-, hplan, htakes, -⟩ := commit_locks_what_ran hcreate runThenSwitching hw ht hsampled
  obtain ⟨-, -, -, hskips, -⟩ := commit_locks_what_ran hcreate runUnvalidated hw₀ ht₀ hsampled₀
  obtain ⟨-, hplan⟩ := hplan .snapshot
  have htakes := htakes .snapshot hsnapshot hfree _ .plain
  have hskips := hskips hnone hfree₀ _ .plain
  have hspares : (e.through runUnvalidated).locks.Spares
      ((e.through runUnvalidated).turn (.plain (.action (.finish 1 .commit)))).2.locks
      (RunStatement.Wrote RowKey.standard (e.ran 1 runUnvalidated)) := by
    cases hskips with
    | ended hspares => exact hspares
    | held _ link hworker => exact absurd rfl (hpasses₀ _ none (hid₀ ▸ hworker))
  rw [hread] at hplan
  refine ⟨workload, e, w, t, hanalyze, hcreate, hw, ht, hsampled, hran, hread, hplan, ?_⟩
  cases htakes with
  | refused conflict hacquire _ =>
      rw [hread] at hacquire
      rw [hacquire] at hgranted
      cases hgranted
  | ended taken checked hacquire hreaches hbeside hcloses hhold =>
      rw [hread] at hacquire hbeside hcloses
      exact ⟨⟨taken, checked, hacquire, hreaches, hbeside, hcloses⟩, hhold, hspares⟩
  | held taken _ _ _ hworker => exact absurd rfl (hpasses _ _ (hid ▸ hworker))

end Engine

end LiveIsolation
