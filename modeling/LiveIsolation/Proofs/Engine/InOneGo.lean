import LiveIsolation.Proofs.Engine.Locked
import LiveIsolation.Proofs.Engine.Muster
import LiveIsolation.Proofs.Engine.Switched
import LiveIsolation.Proofs.Engine.Underway
import LiveIsolation.Proofs.LockTable.Undisturbed

/-!
# Calls in one go

A commit that is under way may be interrupted by the calls of other workers between any two of its
moves. If nobody comes between, its moves bring the engine to where `Engine.startCommit` brings it
in one go, with the same answer (`Overlap.settles_startCommit`). So it is with every call, and with
every run (`Overlap.exists_moves_of_run`): what holds after all moves of an `Overlap` holds after
all actions of an `Engine`.

## Implementation notes

Rejected conflicts are counted when the transaction is given up, after its locks have been given
back. What a commit comes to before that is therefore said of the locks alone (`Engine.Prepares`).
-/

namespace LiveIsolation

namespace Engine

variable {e : Engine} {w : Worker} {t : OpenTransaction} {d : Discipline}

theorem put_put (e : Engine) {w w' : Worker} (hid : w'.id = w.id) :
    (e.put w).put w' = e.put w' := by
  simp only [put, hid, Ordered.insertWith_insertWith_new]

/-- A worker leaves its boundary whether it was held up there or not. -/
theorem leave_put_blocked (e : Engine) (w : Worker) (blocked : Option Blocked) (call : EndCall)
    (result : Except Fault Unit) :
    (e.put { w with blocked }).leave { w with blocked } call result = e.leave w call result := by
  have hput : ∀ (barrier : Barrier) (store : Store) (w₁ : Worker), w₁.id = w.id →
      ({ e.put { w with blocked } with barrier, store } : Engine).put w₁ =
        { e with barrier, store }.put w₁ :=
    fun barrier store w₁ hid => put_put { e with barrier, store } hid
  have hbarrier : (e.put { w with blocked }).barrier = e.barrier := rfl
  have hstore : (e.put { w with blocked }).store = e.store := rfl
  simp only [leave, endCall, hbarrier, hstore]
  split
  · exact congrArg (Prod.mk _) (hput e.barrier e.store _ rfl)
  · rename_i barrier _
    exact congrArg (Prod.mk _) (hput barrier e.store _ rfl)
  · rename_i next barrier _
    split
    · exact congrArg (Prod.mk _) (hput barrier e.store _ rfl)
    · rename_i store _
      exact congrArg (Prod.mk _) (hput barrier store _ rfl)

/-- The fault that a transaction is given up with. Conflicts are counted. -/
def report (e : Engine) : Except Fault (List Conflict) → Fault × Engine
  | .error f => (f, e)
  | .ok found => e.reject found

theorem report_barrier (e : Engine) (verdict : Except Fault (List Conflict)) :
    (e.report verdict).2.barrier = e.barrier := by
  cases verdict with
  | error f => rfl
  | ok found =>
      simp only [report, reject]
      split <;> rfl

/-- What a commit has come to after its locks and its validation, where `locks` is the table that
they leave. -/
inductive Prepares (e : Engine) (locks : LockTable) :
    Except Fault Guard × Engine → CommitCall → Prop where
  | ready (g : Guard) (c : CommitCall) (hheld : c.committer.held = g.held)
    (hstage : c.committer.stage = .validating [] [] .unasked) (hclean : c.Clean) :
    Prepares e locks (.ok g, { e with locks }) c
  | givenUp (verdict : Except Fault (List Conflict)) (c : CommitCall) (h : c.GivenUp verdict) :
    Prepares e locks
      (.error ({ e with locks }.report verdict).1, ({ e with locks }.report verdict).2) c

/-- A commit locks and validates what its transaction has run. -/
theorem course_lockAndValidate (h : e.locks.InOrder) (w : Worker) (t : OpenTransaction)
    (d : Discipline) :
    ∃ c locks, CommitCall.Course w.transaction
        (fun relation key => w.link.fetch e.store (relation, key))
        (.begin t (some d), e.locks) (c, locks) ∧
      e.Prepares locks (e.lockAndValidate w t d) c := by
  obtain ⟨c, hacquire, hcomes⟩ := CommitCall.course_acquire w.transaction
    (fun relation key => w.link.fetch e.store (relation, key)) (t := e.locks)
    (c := .begin t (some d)) rfl rfl ⟨rfl, rfl, rfl⟩
  have horder := h.of_reaches
    (e.locks.reaches_guardAcquire (t.obligations.plan d) w.transaction d)
  change CommitCall.Course _ _ _ (c, (Guard.acquire e.locks (t.obligations.plan d) w.transaction
    d).2) at hacquire
  change CommitCall.ComesTo _ (Guard.acquire e.locks (t.obligations.plan d) w.transaction d).1 c
    at hcomes
  simp only [lockAndValidate]
  generalize Guard.acquire e.locks (t.obligations.plan d) w.transaction d = x
    at hacquire hcomes horder ⊢
  obtain ⟨answer, s⟩ := x
  cases hcomes with
  | failed f c hgiven => exact ⟨c, s, hacquire, .givenUp (.error f) c hgiven⟩
  | denied g conflict found c hgiven =>
      exact ⟨c, s, hacquire, .givenUp (.ok (conflict :: found)) c hgiven⟩
  | onward g =>
      obtain ⟨compared, hvalidate⟩ := CommitCall.course_validate w.transaction
        (fun relation key => w.link.fetch e.store (relation, key)) horder
        (c := { CommitCall.begin t (some d) with
          committer := { (CommitCall.begin t (some d)).committer with
            held := g.held, stage := .validating (t.obligations.under d) [] .unasked } }) rfl rfl
      have hcourse := hacquire.trans hvalidate
      simp only
      generalize s.validate (fun relation key => w.link.fetch e.store (relation, key))
        (t.obligations.under d) = check at hcourse ⊢
      obtain ⟨conflicts, fetched, checkedTable⟩ := check
      cases conflicts with
      | error f =>
          obtain ⟨c', hback, hgiven⟩ := CommitCall.course_giveUp w.transaction
            (fun relation key => w.link.fetch e.store (relation, key)) (t := checkedTable)
            (c := { CommitCall.begin t (some d) with
              committer := { (CommitCall.begin t (some d)).committer with
                held := g.held, compared, stage := .releasing false }
              refusal := some (.fault f) }) (r := .fault f) rfl rfl rfl rfl
          exact ⟨c', _, hcourse.trans hback, .givenUp (.error f) c' hgiven⟩
      | ok later =>
          cases later with
          | nil => exact ⟨_, _, hcourse, .ready g _ rfl rfl ⟨rfl, rfl, rfl⟩⟩
          | cons conflict found =>
              obtain ⟨c', hback, hgiven⟩ := CommitCall.course_refuse w.transaction
                (fun relation key => w.link.fetch e.store (relation, key)) (t := checkedTable)
                (c := CommitCall.checked { CommitCall.begin t (some d) with
                  committer := { (CommitCall.begin t (some d)).committer with held := g.held } }
                  compared [] (.ok (conflict :: found))) rfl ⟨rfl, rfl, rfl⟩
              have hall := hcourse.trans hback
              simp only [Guard.releaseAborted]
              change CommitCall.GivenUp c'
                ((checkedTable.releaseAll false g.held).1.map fun _ => conflict :: found) at hgiven
              change CommitCall.Course _ _ _ (c', (checkedTable.releaseAll false g.held).2) at hall
              generalize checkedTable.releaseAll false g.held = y at hall hgiven ⊢
              obtain ⟨ended, u⟩ := y
              cases ended with
              | error f => exact ⟨c', u, hall, .givenUp (.error f) c' hgiven⟩
              | ok _ => exact ⟨c', u, hall, .givenUp (.ok (conflict :: found)) c' hgiven⟩

/-- Where a worker enters its boundary it is put in its place, whatever stood there. -/
theorem enterBoundary_put (e : Engine) {w v : Worker} (hid : w.id = v.id) (call : EndCall)
    (result : Except Fault Unit) :
    (e.put v).enterBoundary w call result = e.enterBoundary w call result := by
  have hput : ∀ (barrier : Barrier) (w₁ : Worker), w₁.id = v.id →
      ({ e.put v with barrier } : Engine).put w₁ = { e with barrier }.put w₁ :=
    fun barrier w₁ hid => put_put { e with barrier } hid
  have hbarrier : (e.put v).barrier = e.barrier := rfl
  simp only [enterBoundary, endCall, hbarrier]
  split
  · exact congrArg (Prod.mk _) (hput e.barrier _ hid)
  · rename_i barrier _
    exact congrArg (Prod.mk _) (hput barrier _ hid)

section Reaches
variable {n : SwitchNotes}

/-- By every action, the table serves some calls. -/
theorem Seated.reaches_take (h : e.Seated) (htracks : e.Tracks n) (a : EngineAction) :
    e.locks.Reaches (e.take a).2.locks := by
  by_cases hfinish : ∃ id call, a = .finish id call
  · obtain ⟨id, call, rfl⟩ := hfinish
    simp only [take]
    split
    · exact .refl e.locks
    · cases hw : e.worker? id with
      | none =>
          rw [start_of_none hw]
          exact .refl e.locks
      | some w =>
          have hpass : ∀ (e₁ : Engine) (w₁ : Worker) (result : Except Fault Unit),
              e.locks.Reaches e₁.locks →
                e.locks.Reaches (e₁.passBoundary w₁ call result).2.locks := by
            intro e₁ w₁ result hreaches
            rwa [locks_of_crossed (passBoundary_crossed e₁ w₁ call result)]
          cases call with
          | commit =>
              have hgate : w.link.permits = none := htracks.gate id w.tag (tag?_of_worker? hw)
              rw [start_commit hw]
              cases ht : w.current with
              | none =>
                  simp only [startCommit, ht]
                  exact hpass e w (.ok ()) (.refl e.locks)
              | some t =>
                  obtain ⟨result, e₁, w₁, hcommit, hstarted⟩ := startCommit_eq (e := e) ht hgate
                  have hreaches := e.reaches_commitDuring w t fun _ => e.store.unavailable
                  rw [hcommit] at hreaches
                  rw [hstarted]
                  exact hpass e₁ w₁ result hreaches
          | rollback =>
              rw [start_rollback hw]
              rcases startRollback_inv e w with ⟨-, hrollback⟩ | ⟨t, -, hrollback⟩
              · rw [hrollback]
                exact hpass e w (.ok ()) (.refl e.locks)
              · rw [hrollback]
                exact hpass _ _ _ (.refl e.locks)
  · rw [(h.acts_take a fun id call ha => hfinish ⟨id, call, ha⟩).same.2]
    exact .refl e.locks

end Reaches

end Engine

namespace Overlap

open Engine

variable {o o₁ o₂ : Overlap} {w : Worker} {c : CommitCall} {t : OpenTransaction} {id : Nat}
  {events more : List EngineEvent} {call : EndCall} {result : Except Fault Unit}

/-- A move is one of a worker's own. -/
def IsOf (id : Nat) : OverlapMove → Prop
  | .action a => caller? a = some id
  | .proceed i => i = id
  | .leave i => i = id

/-- Moves of one worker bring the engine to a state, and some calls end on the way. -/
def Comes (o : Overlap) (id : Nat) (x : List EngineEvent × Overlap) : Prop :=
  ∃ moves : List OverlapMove, (∀ m ∈ moves, IsOf id m) ∧ o.ends moves = x.1 ∧ o.run moves = x.2

section Comes

theorem ends_append (o : Overlap) (before after : List OverlapMove) :
    o.ends (before ++ after) = o.ends before ++ (o.run before).ends after := by
  induction before generalizing o with
  | nil => rfl
  | cons m rest ih =>
      rw [List.cons_append, ends, ends, ih, List.append_assoc]
      rfl

theorem Comes.refl (o : Overlap) (id : Nat) : o.Comes id ([], o) :=
  ⟨[], fun _ hm => absurd hm List.not_mem_nil, rfl, rfl⟩

theorem Comes.trans (h : o.Comes id (events, o₁)) (h' : o₁.Comes id (more, o₂)) :
    o.Comes id (events ++ more, o₂) := by
  obtain ⟨before, hbefore, rfl, rfl⟩ := h
  obtain ⟨after, hafter, rfl, rfl⟩ := h'
  refine ⟨before ++ after, ?_, ends_append o before after, List.foldl_append⟩
  intro m hm
  rcases List.mem_append.1 hm with hm | hm
  · exact hbefore m hm
  · exact hafter m hm

theorem comes_take {m : OverlapMove} (hm : IsOf id m) :
    o.Comes id (o.take m) := by
  refine ⟨[m], ?_, List.append_nil _, rfl⟩
  intro m' hm'
  rw [List.mem_singleton.1 hm']
  exact hm

theorem comes_advance (hw : o.engine.worker? id = some w) (ht : w.current = some t)
    (hcall : o.calls id = some c) : o.Comes id (o.advance w c t) := by
  have htake : o.take (.proceed id) = o.advance w c t := by
    simp only [take, proceed, hw, hcall, ht]
  exact htake ▸ comes_take (m := .proceed id) rfl

/-- A visit to a lock is a move, whatever comes of it. -/
theorem advance_of_goes (o : Overlap) (w : Worker) (t : OpenTransaction) (h : c.Goes) :
    o.advance w c t = ([], o.visit w c) := by
  obtain ⟨hended, hvalidated⟩ := h
  simp only [advance]
  split
  · rename_i hstage _
    exact absurd hstage hended
  · rename_i hstage _
    exact absurd hstage hended
  · rename_i hstage _ _
    exact absurd hstage hended
  · rename_i hstage _ _
    exact absurd hstage hended
  · rename_i lookup hstage
    exact absurd hstage (hvalidated lookup)
  · rfl

theorem set_set (o : Overlap) (e e' : Engine) (id : Nat) (c c' : Option CommitCall) :
    (o.set e id c).set e' id c' = o.set e' id c' := by
  rw [set, set, set, Function.update_idem]

/-- The moves of a commit that visits one lock after another. -/
theorem comes_course (hw : o.engine.worker? w.id = some w) (ht : w.current = some t)
    (hcall : o.calls w.id = some c) {c' : CommitCall} {s : LockTable} {fetch : VersionSource}
    (hfetch : fetch = fun relation key => w.link.fetch o.engine.store (relation, key))
    (h : CommitCall.Course w.transaction fetch (c, o.engine.locks) (c', s)) :
    o.Comes w.id ([], o.set { o.engine with locks := s } w.id (some c')) := by
  generalize hstart : (c, o.engine.locks) = x at h
  generalize hend : (c', s) = y at h
  induction h using Relation.ReflTransGen.head_induction_on generalizing o c with
  | refl =>
      obtain ⟨rfl, hlocks⟩ := Prod.mk.inj (hstart.trans hend.symm)
      have hsame : o.set { o.engine with locks := s } w.id (some c) = o := by
        rw [← hlocks, set, ← hcall, Function.update_eq_self]
      rw [hsame]
      exact .refl o w.id
  | head hmove _ ih =>
      subst hstart
      obtain ⟨hgoes, rfl⟩ := hmove
      have hadvance := comes_advance hw ht hcall
      have hvisit : o.visit w c = o.set
          { o.engine with
            locks := (c.visit w.transaction o.engine.locks (c.committer.nextMove fetch)).2 } w.id
          (some (c.visit w.transaction o.engine.locks (c.committer.nextMove fetch)).1) := by
        rw [hfetch]
        rfl
      rw [advance_of_goes o w t hgoes, hvisit] at hadvance
      have hrest := ih (o := o.set
          { o.engine with
            locks := (c.visit w.transaction o.engine.locks (c.committer.nextMove fetch)).2 } w.id
          (some (c.visit w.transaction o.engine.locks (c.committer.nextMove fetch)).1)) hw
        (Function.update_self ..) hfetch rfl
      rw [set_set] at hrest
      exact hadvance.trans hrest

end Comes

section Boundary

/-- A worker that is not awaited leaves its boundary, and has then passed it. -/
theorem comes_pass {e : Engine} (hid : w.id = id) (hstopped : id ∉ e.barrier.stopped)
    (calls : Nat → Option CommitCall) (call : EndCall) (result : Except Fault Unit)
    (h : o.Comes id
      ((e.enterBoundary w call result).1, ⟨(e.enterBoundary w call result).2, calls⟩)) :
    o.Comes id ((e.passBoundary w call result).1, ⟨(e.passBoundary w call result).2, calls⟩) := by
  simp only [enterBoundary] at h
  simp only [passBoundary]
  cases henter : e.barrier.enter w.id with
  | error f => simpa only [henter] using h
  | ok entered =>
      obtain ⟨required, barrier⟩ := entered
      simp only [henter] at h
      cases required with
      | none => exact h
      | some required =>
          obtain ⟨m, -, ⟨-, -, hnone, -⟩ | ⟨-, -, rfl⟩⟩ := Barrier.enter_eq_ok henter
          · cases hnone
          let w₁ : Worker := { w with blocked := some (.atBoundary call result) }
          have htake : Overlap.take ⟨e.put w₁, calls⟩ (.leave id) =
              ((e.leave w call result).1, ⟨(e.leave w call result).2, calls⟩) := by
            have hworker : (e.put w₁).worker? id = some w₁ := by
              rw [worker?_put, if_pos hid.symm]
            have hresume : (e.put w₁).resume id = e.leave w call result := by
              simp only [resume, hworker]
              exact leave_put_blocked e w _ call result
            simp only [take]
            rw [if_neg (show id ∉ (e.put w₁).barrier.stopped from hstopped), hresume]
          exact h.trans (htake ▸ comes_take (m := .leave id) rfl)

end Boundary

section Commit

theorem conclude_set (o : Overlap) (w : Worker) (e e' : Engine) (c : Option CommitCall)
    (committed : Bool) (result : Except Fault Unit) :
    (o.set e w.id c).conclude w e' committed result = o.conclude w e' committed result := by
  cases committed with
  | true => exact congrArg (Prod.mk _) (set_set o e _ w.id c none)
  | false => exact congrArg (Prod.mk _) (set_set o e _ w.id c none)

/-- The worker whose commit ends is put in its place anyway. -/
theorem conclude_put (o : Overlap) (w : Worker) (e : Engine) (committed : Bool)
    (result : Except Fault Unit) :
    o.conclude w (e.put w) committed result = o.conclude w e committed result := by
  cases committed with
  | true =>
      have henter := enterBoundary_put (e.finish w true).1 (w := (e.finish w true).2) (v := w) rfl
        .commit result
      exact congrArg (fun x => (x.1, o.set x.2 w.id none)) henter
  | false =>
      have henter := enterBoundary_put (e.abandon w).1 (w := (e.abandon w).2) (v := w) rfl
        .commit result
      exact congrArg (fun x => (x.1, o.set x.2 w.id none)) henter

/-- Moves of the commit of a worker bring it to its end, and the engine to a state. -/
abbrev Settles (o : Overlap) (id : Nat) (x : List EngineEvent × Engine) : Prop :=
  o.Comes id (x.1, o.set x.2 id none)

/-- A commit that has failed, its worker past the boundary. -/
theorem settles_abort {e : Engine} {f : Fault} (hstopped : w.id ∉ e.barrier.stopped)
    (h : o.Comes w.id (o.conclude w e false (.error f))) : o.Settles w.id (e.abort w f) :=
  comes_pass (e := (e.abandon w).1) (w := (e.abandon w).2) rfl hstopped
    (Function.update o.calls w.id none) .commit (.error f) h

/-- A commit that has been made, its worker past the boundary. -/
theorem settles_finish {e : Engine} (hstopped : w.id ∉ e.barrier.stopped)
    (h : o.Comes w.id (o.conclude w e true result)) :
    o.Settles w.id ((e.finish w true).1.passBoundary (e.finish w true).2 .commit result) :=
  comes_pass (e := (e.finish w true).1) (w := (e.finish w true).2) rfl hstopped
    (Function.update o.calls w.id none) .commit result h

/-- A transaction that has been given up is reported. -/
theorem advance_givenUp {verdict : Except Fault (List Conflict)} (h : c.GivenUp verdict) :
    o.advance w c t = o.conclude w (o.engine.report verdict).2 false
      (.error (o.engine.report verdict).1) := by
  obtain ⟨hended, hverdict, hstored⟩ := h
  simp only [CommitCall.verdict?, Option.map_eq_some_iff] at hverdict
  obtain ⟨r, hrefusal, rfl⟩ := hverdict
  simp only [advance, hended, hstored, hrefusal]
  cases r with
  | fault f => rfl
  | conflicts found =>
      simp only [giveUp]
      cases c.returned <;> rfl

/-- A commit that the store has made makes the versions of its rows known and ends. -/
theorem comes_refresh (rows : List (Place × Nat)) (hw : o.engine.worker? w.id = some w)
    (ht : w.current = some t) (hcall : o.calls w.id = some c)
    (hended : c.committer.stage = .ended) (hstored : c.stored = some rows) :
    o.Comes w.id (o.conclude w { o.engine with locks := (refresh o.engine.locks rows).2 } true
      (Fault.first c.returned (refresh o.engine.locks rows).1)) := by
  have hnone : ∀ {o : Overlap} {c : CommitCall}, o.engine.worker? w.id = some w →
      o.calls w.id = some c → c.committer.stage = .ended → c.stored = some [] →
        o.Comes w.id (o.conclude w o.engine true c.returned) := by
    intro o c hw hcall hended hstored
    have hadvance : o.advance w c t = o.conclude w o.engine true c.returned := by
      simp only [advance, hended, hstored]
    exact hadvance ▸ comes_advance hw ht hcall
  induction rows generalizing o c with
  | nil =>
      simp only [refresh, Fault.first_ok_right]
      exact hnone hw hcall hended hstored
  | cons row rest ih =>
      have hadvance : o.advance w c t = ([], o.makeKnown w c row rest) := by
        simp only [advance, hended, hstored]
      have hfirst := comes_advance hw ht hcall
      rw [hadvance] at hfirst
      simp only [makeKnown] at hfirst
      obtain ⟨⟨relation, key⟩, version⟩ := row
      simp only [refresh]
      generalize o.engine.locks.updateVersion relation key version = x at hfirst ⊢
      obtain ⟨answer, s⟩ := x
      cases answer with
      | error f =>
          have hlast := hnone (o := o.set { o.engine with locks := s } w.id
            (some { c with stored := some [], returned := Fault.first c.returned (.error f) }))
            hw (Function.update_self ..) hended rfl
          rw [conclude_set] at hlast
          exact hfirst.trans hlast
      | ok u =>
          cases u
          have hlast := ih (o := o.set { o.engine with locks := s } w.id
            (some { c with stored := some rest }))
            hw (Function.update_self ..) hended rfl
          rw [conclude_set] at hlast
          simp only [Fault.first_ok_right] at hfirst
          exact hfirst.trans hlast

/-- A commit that visits its locks until it is given up. -/
theorem settles_givenUp {s : LockTable} {c' : CommitCall} {verdict : Except Fault (List Conflict)}
    (hw : o.engine.worker? w.id = some w) (ht : w.current = some t) (hcall : o.calls w.id = some c)
    (hstopped : w.id ∉ o.engine.barrier.stopped)
    (hcourse : CommitCall.Course w.transaction
      (fun relation key => w.link.fetch o.engine.store (relation, key)) (c, o.engine.locks) (c', s))
    (hgiven : c'.GivenUp verdict) :
    o.Settles w.id (({ o.engine with locks := s }.report verdict).2.abort w
      ({ o.engine with locks := s }.report verdict).1) := by
  have hlast := comes_advance (o := o.set { o.engine with locks := s } w.id (some c')) hw ht
    (Function.update_self ..)
  rw [advance_givenUp hgiven, conclude_set] at hlast
  exact settles_abort (report_barrier { o.engine with locks := s } verdict ▸ hstopped)
    ((comes_course hw ht hcall rfl hcourse).trans hlast)

/-- A commit that the store has made gives its locks back and makes its versions known. -/
theorem comes_committed {rows : List (Place × Nat)} (hw : o.engine.worker? w.id = some w)
    (ht : w.current = some t) (hcall : o.calls w.id = some c)
    (hstage : c.committer.stage = .releasing true) (hreturned : c.returned = .ok ())
    (hstored : c.stored = some rows) :
    o.Comes w.id
      (o.conclude w
        { o.engine with
          locks := (refresh (o.engine.locks.releaseAll true c.committer.held).2 rows).2 } true
        (Fault.first (o.engine.locks.releaseAll true c.committer.held).1
          (refresh (o.engine.locks.releaseAll true c.committer.held).2 rows).1)) := by
  have hback := comes_course hw ht hcall rfl (CommitCall.course_releaseAll w.transaction
    (fun relation key => w.link.fetch o.engine.store (relation, key)) (t := o.engine.locks) hstage)
  have hknown := comes_refresh rows (o := o.set { o.engine with
      locks := (o.engine.locks.releaseAll true c.committer.held).2 } w.id (some { c with
        committer := { c.committer with held := [], stage := .ended }
        returned := Fault.first c.returned
          (o.engine.locks.releaseAll true c.committer.held).1 })) hw ht
    (Function.update_self ..) rfl hstored
  rw [conclude_set, hreturned, Fault.first_ok] at hknown
  rw [hreturned, Fault.first_ok] at hback
  exact hback.trans hknown

/-- The store is asked to commit, and the locks are given back. -/
theorem settles_commitStore {guard : Option Guard} (hw : o.engine.worker? w.id = some w)
    (ht : w.current = some t) (hcall : o.calls w.id = some c)
    (hstopped : w.id ∉ o.engine.barrier.stopped)
    (hstage : c.committer.stage = .validating [] [] .unasked) (hclean : c.Clean)
    (hheld : c.committer.held = guard.elim [] Guard.held) :
    o.Settles w.id (o.engine.commitStore w t guard) := by
  have hadvance : o.advance w c t = ([], o.askStore w c t) := by
    simp only [advance, hstage]
  have hfirst := comes_advance hw ht hcall
  rw [hadvance] at hfirst
  simp only [askStore] at hfirst
  simp only [commitStore]
  cases hcommit : w.link.commit o.engine.store with
  | error f =>
      simp only [hcommit] at hfirst
      obtain ⟨c', hback, hgiven⟩ := CommitCall.course_giveUp w.transaction
        (fun relation key => w.link.fetch o.engine.store (relation, key)) (t := o.engine.locks)
        (c := { c with committer := c.committer.leave false, refusal := some (.fault f) })
        (r := .fault f) rfl rfl hclean.returned hclean.stored
      have hrest := settles_givenUp (o := o.set o.engine w.id (some { c with
        committer := c.committer.leave false, refusal := some (.fault f) })) hw ht
        (Function.update_self ..) hstopped hback hgiven
      have hlocks : (o.engine.locks.releaseAll false c.committer.held).2 =
          guard.elim o.engine.locks fun g => (g.releaseAborted o.engine.locks).2 := by
        rw [hheld]
        cases guard <;> rfl
      rw [Settles, set_set] at hrest
      exact hlocks ▸ hfirst.trans hrest
  | ok done =>
      obtain ⟨link, store⟩ := done
      simp only [hcommit] at hfirst
      have hworker : (put { o.engine with store } { w with link }).worker? w.id =
          some { w with link } := by
        rw [worker?_put, if_pos rfl]
      have hrest := comes_committed (w := { w with link })
        (o := o.set (put { o.engine with store } { w with link }) (Worker.id { w with link })
          (some { c with committer := c.committer.leave true, stored := some t.written }))
        hworker ht (Function.update_self ..) rfl hclean.returned rfl
      -- The worker and the call are put in their places again at the end.
      rw [conclude_set] at hrest
      change Comes _ _ (o.conclude { w with link }
        (put { o.engine with
          store
          locks := (refresh (o.engine.locks.releaseAll true c.committer.held).2 t.written).2 }
          { w with link }) true
        (Fault.first (o.engine.locks.releaseAll true c.committer.held).1
          (refresh (o.engine.locks.releaseAll true c.committer.held).2 t.written).1)) at hrest
      rw [conclude_put] at hrest
      have hall := settles_finish (w := { w with link }) (by exact hstopped) (hfirst.trans hrest)
      rw [hheld] at hall
      cases guard with
      | none => exact hall
      | some g => exact hall

/-- The moves of a commit come to what the commit in one go comes to. -/
theorem settles_startCommit (hw : o.engine.worker? w.id = some w) (ht : w.current = some t)
    (hcall : o.calls w.id = some (.begin t o.engine.barrier.required.discipline?))
    (hstopped : w.id ∉ o.engine.barrier.stopped) (horder : o.engine.locks.InOrder)
    (hgate : w.link.permits = none) : o.Settles w.id (o.engine.startCommit w) := by
  simp only [startCommit, ht]
  cases hd : o.engine.barrier.required.discipline? with
  | none =>
      rw [hd] at hcall
      simp only [comeToGate_eq _ _ _ hgate]
      exact settles_commitStore hw ht hcall hstopped rfl ⟨rfl, rfl, rfl⟩ rfl
  | some d =>
      rw [hd] at hcall
      obtain ⟨c, locks, hcourse, hprepares⟩ := course_lockAndValidate horder w t d
      simp only
      generalize o.engine.lockAndValidate w t d = x at hprepares ⊢
      cases hprepares with
      | ready g c hheld hstage hclean =>
          simp only [comeToGate_eq _ _ _ hgate]
          have hstore : (o.set { o.engine with locks } w.id (some c)).Settles w.id
              (commitStore { o.engine with locks } w t (some g)) :=
            settles_commitStore hw ht (Function.update_self ..) hstopped hstage hclean hheld
          rw [Settles, set_set] at hstore
          exact (comes_course hw ht hcall rfl hcourse).trans hstore
      | givenUp verdict c hgiven => exact settles_givenUp hw ht hcall hstopped hcourse hgiven

end Commit

section Run
variable {e : Engine} {n : SwitchNotes}

/-- If nobody comes between, a call that ends a transaction brings the engine to where it brings it
in one go, with the same answer. -/
theorem comes_finish (hw : o.engine.worker? w.id = some w) (hfree : w.blocked = none)
    (hcall : o.calls w.id = none) (hstopped : w.id ∉ o.engine.barrier.stopped)
    (horder : o.engine.locks.InOrder) (hgate : w.link.permits = none) (call : EndCall) :
    o.Comes w.id ((o.engine.start w.id call).1,
      { o with engine := (o.engine.start w.id call).2 }) := by
  have htake : o.take (.action (.finish w.id call)) = o.finish w call := by
    have hoccupied : o.occupied (.finish w.id call) = false := by
      simp [occupied, caller?, hcall, busy, hw, hfree]
    simp only [Overlap.take, hoccupied, Bool.false_eq_true, if_false, hw]
  have hfirst : o.Comes w.id (o.finish w call) :=
    htake ▸ comes_take (m := .action (.finish w.id call)) rfl
  cases hcurrent : w.current with
  | none =>
      have hstart : o.engine.start w.id call = o.engine.passBoundary w call (.ok ()) := by
        cases call with
        | commit => simp only [start_commit hw, startCommit, hcurrent]
        | rollback => simp only [start_rollback hw, startRollback, hcurrent]
      rw [hstart]
      simp only [finish, hcurrent] at hfirst
      exact comes_pass rfl hstopped o.calls call (.ok ()) hfirst
  | some t =>
      cases call with
      | commit =>
          simp only [finish, hcurrent] at hfirst
          have hrest := settles_startCommit (o := o.set o.engine w.id
              (some (.begin t o.engine.barrier.required.discipline?)))
            hw hcurrent (Function.update_self ..) hstopped horder hgate
          have hcalls : ∀ e, o.set e w.id none = { o with engine := e } := by
            intro e
            rw [set, ← hcall, Function.update_eq_self]
          rw [Settles, set_set, hcalls] at hrest
          rw [start_commit hw]
          exact hfirst.trans hrest
      | rollback =>
          simp only [finish, hcurrent] at hfirst
          rw [start_rollback hw]
          simp only [startRollback, hcurrent]
          exact comes_pass (w := { w with link := w.link.rollback.2, current := none })
            (e := { o.engine with counters := o.engine.counters.finish false }) rfl hstopped o.calls
            .rollback w.link.rollback.1 hfirst

/-- An action that ends no transaction is a move. -/
theorem take_start {a : EngineAction} (ha : ∀ id call, a ≠ .finish id call) :
    (start e).take (.action a) = ((e.take a).1, start (e.take a).2) := by
  have hfree : (start e).occupied a = false →
      (start e).take (.action a) = ((e.take a).1, start (e.take a).2) := by
    intro hoccupied
    simp only [Overlap.take, hoccupied, Bool.false_eq_true, if_false]
    cases a with
    | finish id call => exact absurd rfl (ha id call)
    | _ => rfl
  have hbusy : (start e).occupied a = true → e.take a = ([], e) →
      (start e).take (.action a) = ((e.take a).1, start (e.take a).2) := by
    intro hoccupied htake
    simp only [Overlap.take, hoccupied, if_true, htake]
  cases a with
  | finish id call => exact absurd rfl (ha id call)
  | execute id name index args =>
      cases hid : e.busy id with
      | true => exact hbusy hid (take_execute_of_busy hid name index args)
      | false => exact hfree hid
  | close id =>
      cases hid : e.busy id with
      | true => exact hbusy hid (by simp only [Engine.take, hid, if_true])
      | false => exact hfree hid
  | _ => exact hfree rfl

/-- Every action on an engine without calls in progress is made of moves. -/
theorem exists_moves_of_take (h : e.Mustered) (htracks : e.Tracks n) (horder : e.locks.InOrder)
    (a : EngineAction) :
    ∃ moves, (start e).ends moves = (e.take a).1 ∧ (start e).run moves = start (e.take a).2 := by
  by_cases hfinish : ∃ id call, a = .finish id call
  · obtain ⟨id, call, rfl⟩ := hfinish
    cases hbusy : e.busy id with
    | true =>
        have htake : e.take (.finish id call) = ([], e) := by
          simp only [Engine.take, hbusy, if_true]
        rw [htake]
        exact ⟨[], rfl, rfl⟩
    | false =>
        have htake : e.take (.finish id call) = e.start id call := by
          simp only [Engine.take, hbusy, Bool.false_eq_true, if_false]
        rw [htake]
        cases hw : e.worker? id with
        | none =>
            have hmove : (start e).take (.action (.finish id call)) =
                ([.ended call id (.error (.workerClosed id))], start e) := by
              have hoccupied : (start e).occupied (.finish id call) = false := hbusy
              have hworker : (start e).engine.worker? id = none := hw
              simp only [Overlap.take, hoccupied, Bool.false_eq_true, if_false, hworker]
            have hstart : e.start id call = ([.ended call id (.error (.workerClosed id))], e) := by
              simp only [Engine.start, hw]
            refine ⟨[.action (.finish id call)], ?_, ?_⟩
            · rw [ends, ends, hmove, hstart, List.append_nil]
            · rw [run, List.foldl_cons, List.foldl_nil, hmove, hstart]
        | some w =>
            obtain rfl : w.id = id := (h.seated id w hw).1
            have hfree : w.blocked = none := by
              simpa [busy, hw] using hbusy
            have hstopped : w.id ∉ e.barrier.stopped := by
              rw [h.musters.stopped, standing_of_worker? hw, standing_of_blocked hfree]
              intro hstanding
              cases hstanding
            obtain ⟨moves, -, hends, hrun⟩ := comes_finish (o := start e) hw hfree rfl hstopped
              horder (htracks.gate w.id w.tag (tag?_of_worker? hw)) call
            exact ⟨moves, hends, hrun⟩
  · have htake := take_start (e := e) fun id call ha => hfinish ⟨id, call, ha⟩
    refine ⟨[.action a], ?_, ?_⟩
    · rw [ends, ends, htake, List.append_nil]
    · rw [run, List.foldl_cons, List.foldl_nil, htake]

/-- Whatever calls follow one another in one go, moves lead to the same engine, and the same calls
end. -/
theorem exists_moves_of_run {workload : Workload} {config : EngineConfig} {keys : KeyRule}
    (h : create workload config keys = .ok e) (actions : List EngineAction) :
    ∃ moves, (start e).ends moves = e.ends (actions.map fun a => .plain (.action a)) ∧
      (start e).run moves = start (e.run actions) := by
  have horder : e.locks.InOrder := by
    obtain ⟨protocol, locks, -, hlocks, rfl⟩ := create_eq_ok h
    exact LockTable.inOrder_create hlocks
  have hmustered := mustered_create h
  have htracks := tracks_create h
  generalize ({} : SwitchNotes) = n at htracks
  clear h
  induction actions generalizing e n with
  | nil => exact ⟨[], rfl, rfl⟩
  | cons a rest ih =>
      obtain ⟨first, hfirst, hrun⟩ := exists_moves_of_take hmustered htracks horder a
      obtain ⟨later, hlater, hrest⟩ := ih
        (horder.of_reaches (hmustered.seated.reaches_take htracks a))
        (hmustered.turn (.plain (.action a))) _ (htracks.take a)
      refine ⟨first ++ later, ?_, ?_⟩
      · rw [ends_append, hrun, hfirst, hlater]
        rfl
      · rw [run, List.foldl_append, ← run, ← run, hrun, hrest]
        rfl

end Run

end Overlap

end LiveIsolation
