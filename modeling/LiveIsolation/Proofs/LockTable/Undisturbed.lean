import LiveIsolation.Proofs.LockTable.CommitCall

/-!
# A commit that nobody disturbs

Between two moves of a commit others may move. If none does, then the moves come to what the
functions for a whole commit compute: `Guard.acquire` for the locks (`course_acquire`),
`LockTable.validate` for the validation (`course_validate`), and `LockTable.releaseAll` for giving
the locks back (`course_releaseAll`). What these functions report is what the transaction is given
up with, if it is (`CommitCall.ComesTo`). A course of one commit is a run of a race in which the
others rest (`Race.run_of_course`).
-/

namespace LiveIsolation

namespace LockTable

variable {t : LockTable} {relation : String}

theorem config_put (t : LockTable) (relation : String) (r : RelationLocks) :
    (t.put relation r).config = t.config := rfl

theorem put_put (t : LockTable) (relation : String) (r s : RelationLocks) :
    (t.put relation r).put relation s = t.put relation s := by
  simp only [put, Ordered.insertWith_insertWith_new]

/-- The relations stand in order. -/
def InOrder (t : LockTable) : Prop := Ordered.Sorted textLt t.relations

theorem InOrder.put (h : t.InOrder) (relation : String) (r : RelationLocks) :
    (t.put relation r).InOrder :=
  Ordered.sorted_insertWith textLt h

theorem InOrder.put_self (h : t.InOrder) {r : RelationLocks} (hr : t.find? relation = some r) :
    t.put relation r = t := by
  simp only [LockTable.put, Ordered.insertWith_new_self textLt h hr]

theorem inOrder_create {relations : List String} {config : LockTableConfig}
    (h : create relations config = .ok t) : t.InOrder := by
  simp only [create] at h
  split at h
  · cases h
  · rw [← Except.ok.inj h]
    exact Ordered.sorted_ofList textLt ({} : RelationLocks) relations

theorem InOrder.within (h : t.InOrder) {α : Type} (relation : String)
    (f : RelationLocks → α × RelationLocks) : (t.within relation f).2.InOrder := by
  simp only [LockTable.within]
  cases t.find? relation with
  | none => exact h
  | some r => exact h.put relation _

theorem InOrder.serve (h : t.InOrder) (call : LockCall) : (t.serve call).2.InOrder := by
  have hrelease : ∀ (kind : LockKind) (advance : Bool),
      (t.release call.relation call.key kind advance).2.InOrder := by
    intro kind advance
    simp only [LockTable.release]
    cases t.find? call.relation with
    | none => exact h
    | some r =>
        cases hback : r.release t.config call.relation call.key kind advance with
        | error f => simpa only [hback] using h
        | ok back => simpa only [hback] using h.put call.relation back.2
  simp only [LockTable.serve]
  cases call.op with
  | attempt requester kind d => exact h.within call.relation _
  | acquire requester kind d => exact h.within call.relation _
  | release kind => exact hrelease kind false
  | releaseAndAdvance kind => exact hrelease kind true
  | withdraw requester =>
      exact h.within call.relation fun r => ((), r.withdraw call.key requester)
  | updateVersion v =>
      exact h.within call.relation fun r => ((), r.updateVersion t.config call.key v)
  | observeVersion v =>
      exact h.within call.relation fun r => ((), r.observeVersion t.config call.key v)
  | currentVersion fetch =>
      have hwithin := h.within call.relation (·.currentVersion t.config call.key fetch)
      simp only [LockTable.currentVersion]
      generalize t.within call.relation (·.currentVersion t.config call.key fetch) = x
        at hwithin ⊢
      obtain ⟨answer, s⟩ := x
      cases answer <;> exact hwithin
  | version => exact h

theorem InOrder.of_reaches (h : t.InOrder) {s : LockTable} (hreaches : t.Reaches s) :
    s.InOrder := by
  obtain ⟨calls, rfl⟩ := hreaches
  induction calls generalizing t with
  | nil => exact h
  | cons call rest ih => exact ih (h.serve call)

/-- A version that is observed where none was known is known. -/
theorem version?_put_observe (t : LockTable) (relation : String) {r : RelationLocks} {key : RowKey}
    (hr : r.version? key = none) (v : Nat) :
    (t.put relation (r.observeVersion t.config key v)).version? relation key = .ok (some v) := by
  have hversion : (r.observeVersion t.config key v).version? key = some v := by
    rw [RelationLocks.version?_eq] at hr ⊢
    rw [RelationLocks.observeVersion, RelationLocks.touch_eq, RelationLocks.lockAt_put, if_pos rfl]
    simp only [Lock.observeVersion, hr, Option.getD_none]
  rw [version?, LockTable.relation, find?_put, if_pos rfl]
  exact congrArg Except.ok hversion

end LockTable

namespace Fault

theorem first_ok_right (r : Except Fault Unit) : first r (.ok ()) = r := by
  cases r <;> rfl

theorem first_assoc (r s u : Except Fault Unit) : first (first r s) u = first r (first s u) := by
  cases r <;> rfl

end Fault

/-- What a transaction is given up with: a fault, or its conflicts if there was no fault in giving
its locks back. -/
def Refusal.verdict (returned : Except Fault Unit) : Refusal → Except Fault (List Conflict)
  | .fault f => .error f
  | .conflicts found => returned.map fun _ => found

namespace CommitCall

/-- What a transaction is given up with after its locks have been given back. -/
def verdict? (c : CommitCall) : Option (Except Fault (List Conflict)) :=
  c.refusal.map (Refusal.verdict c.returned)

/-- Nothing has gone wrong with a commit that has still to come to the store. -/
structure Clean (c : CommitCall) : Prop where
  refusal : c.refusal = none
  returned : c.returned = .ok ()
  stored : c.stored = none

/-- A commit that has been given up: its locks have been given back, and what is reported is
clear. -/
structure GivenUp (c : CommitCall) (verdict : Except Fault (List Conflict)) : Prop where
  ended : c.committer.stage = .ended
  verdict : c.verdict? = some verdict
  stored : c.stored = none

/-- What a commit has come to after one of its parts: it goes on with what the part has got it, or
it has been given up for what the part reports. -/
inductive ComesTo {α : Type} (onward : α → CommitCall) :
    Except Fault (α × List Conflict) → CommitCall → Prop where
  | onward (a : α) : ComesTo onward (.ok (a, [])) (onward a)
  | denied (a : α) (conflict : Conflict) (found : List Conflict) (c : CommitCall)
    (h : c.GivenUp (.ok (conflict :: found))) : ComesTo onward (.ok (a, conflict :: found)) c
  | failed (f : Fault) (c : CommitCall) (h : c.GivenUp (.error f)) : ComesTo onward (.error f) c

/-- The next move of a commit is a visit. -/
def Goes (c : CommitCall) : Prop :=
  c.committer.stage ≠ .ended ∧ ∀ lookup, c.committer.stage ≠ .validating [] [] lookup

/-- A commit and the table after its next move. -/
def Moves (id : Nat) (fetch : VersionSource) (x y : CommitCall × LockTable) : Prop :=
  x.1.Goes ∧ y = x.1.visit id x.2 (x.1.committer.nextMove fetch)

/-- The moves of one commit, one after another. -/
abbrev Course (id : Nat) (fetch : VersionSource) :
    CommitCall × LockTable → CommitCall × LockTable → Prop :=
  Relation.ReflTransGen (Moves id fetch)

variable {c : CommitCall} {k : Committer} {t s : LockTable} {id : Nat} {fetch : VersionSource}
  {m : CommitMove} {y : CommitCall × LockTable}

/-- A move, and what follows it. -/
theorem Course.step (hgoes : c.Goes) (hnext : c.committer.nextMove fetch = m)
    (hstep : c.committer.step id t m = (k, s))
    (h : Course id fetch
      ({ c with
        committer := k
        refusal := c.refusal.or (c.committer.refusal? id t m)
        returned := Fault.first c.returned (c.committer.returned t m) }, s) y) :
    Course id fetch (c, t) y := by
  refine h.head ⟨hgoes, ?_⟩
  rw [hnext, visit, hstep]

/-- A move by which nothing becomes clear, and what follows it. -/
theorem Course.silent (hgoes : c.Goes) (hnext : c.committer.nextMove fetch = m)
    (hstep : c.committer.step id t m = (k, s))
    (hrefusal : c.committer.refusal? id t m = none)
    (hreturned : c.committer.returned t m = .ok ())
    (h : Course id fetch ({ c with committer := k }, s) y) : Course id fetch (c, t) y := by
  refine .step hgoes hnext hstep ?_
  rw [hrefusal, hreturned, Option.or_none, Fault.first_ok_right]
  exact h

variable (id fetch)

section Release

/-- All that a guard holds is given back, whether the table complains or not. -/
theorem course_releaseAll {advance : Bool} (hstage : c.committer.stage = .releasing advance) :
    Course id fetch (c, t)
      ({ c with
        committer := { c.committer with held := [], stage := .ended }
        returned := Fault.first c.returned (t.releaseAll advance c.committer.held).1 },
        (t.releaseAll advance c.committer.held).2) := by
  generalize hheld : c.committer.held = plan
  have hgoes : c.Goes := by simp [Goes, hstage]
  have hnext : c.committer.nextMove fetch = .next := by simp [Committer.nextMove, hstage]
  have hrefusal : c.committer.refusal? id t .next = none := by
    simp [Committer.refusal?, hstage]
  induction plan generalizing c t with
  | nil =>
      have hstep : c.committer.step id t .next =
          ({ c.committer with held := [], stage := .ended }, t) := by
        simp only [Committer.step, hstage, Committer.giveBack, hheld]
      have hreturned : c.committer.returned t .next = .ok () := by
        simp only [Committer.returned, hstage, hheld]
      refine .silent hgoes hnext hstep hrefusal hreturned ?_
      simp only [LockTable.releaseAll, Fault.first_ok_right]
      exact .refl
  | cons q rest ih =>
      have hstep : c.committer.step id t .next =
          ({ c.committer with held := rest },
            (t.release q.relation q.key q.kind advance).2) := by
        simp only [Committer.step, hstage, Committer.giveBack, hheld]
      have hreturned : c.committer.returned t .next =
          (t.release q.relation q.key q.kind advance).1.map fun _ => () := by
        simp only [Committer.returned, hstage, hheld]
      have hlast : t.releaseAll advance (q :: rest) =
          (Fault.first ((t.release q.relation q.key q.kind advance).1.map fun _ => ())
            ((t.release q.relation q.key q.kind advance).2.releaseAll advance rest).1,
          ((t.release q.relation q.key q.kind advance).2.releaseAll advance rest).2) := by
        simp only [LockTable.releaseAll]
        split <;> rename_i hrelease <;> rw [hrelease] <;> rfl
      refine .step hgoes hnext hstep ?_
      rw [hrefusal, hreturned, Option.or_none, hlast, ← Fault.first_assoc]
      exact ih (c := { c with
        committer := { c.committer with held := rest }
        returned := Fault.first c.returned
          ((t.release q.relation q.key q.kind advance).1.map fun _ => ()) })
        hstage rfl hgoes hnext (by simp [Committer.refusal?, hstage])

/-- A commit that is given up gives its locks back. -/
theorem course_giveUp {r : Refusal} (hstage : c.committer.stage = .releasing false)
    (hrefusal : c.refusal = some r) (hreturned : c.returned = .ok ()) (hstored : c.stored = none) :
    ∃ c' : CommitCall,
      Course id fetch (c, t) (c', (t.releaseAll false c.committer.held).2) ∧
        c'.GivenUp (r.verdict (t.releaseAll false c.committer.held).1) := by
  refine ⟨_, course_releaseAll id fetch hstage, rfl, ?_, hstored⟩
  simp only [verdict?, hrefusal, hreturned, Fault.first_ok, Option.map_some]

end Release

section Acquire
variable {q : LockRequest} {rest : LockPlan}

/-- A commit after the acquisition of the first lock that was left. -/
def granted? (c : CommitCall) (q : LockRequest) (rest : LockPlan) :
    Except Fault AcquireOutcome → CommitCall
  | .ok .granted =>
    { c with
      committer := { c.committer with held := c.committer.held ++ [q], stage := .locking rest 0 } }
  | .ok outcome =>
    { c with
      committer := c.committer.leave false
      refusal := c.refusal.or (Committer.denied q outcome) }
  | .error f =>
    { c with committer := c.committer.leave false, refusal := c.refusal.or (some (.fault f)) }

/-- A request that was not granted is withdrawn. -/
theorem course_withdraw (r : RelationLocks) (hstage : c.committer.stage = .withdrawing q) :
    Course id fetch (c, t.put q.relation r)
      ({ c with committer := c.committer.leave false },
        t.put q.relation (r.withdraw q.key id)) := by
  have hr : (t.put q.relation r).find? q.relation = some r := by
    rw [LockTable.find?_put, if_pos rfl]
  have hstep : c.committer.step id (t.put q.relation r) .next =
      (c.committer.leave false, t.put q.relation (r.withdraw q.key id)) := by
    simp only [Committer.step, hstage, LockTable.withdraw]
    rw [LockTable.within_of_find? hr, LockTable.put_put]
  refine .silent (m := .next) ?_ ?_ hstep ?_ ?_ .refl
  · simp [Goes, hstage]
  · simp [Committer.nextMove, hstage]
  · simp [Committer.refusal?, hstage]
  · simp [Committer.returned, hstage]

/-- One attempt of an acquisition. -/
theorem course_tryOnce {r : RelationLocks} (hr : t.find? q.relation = some r) {waits left : Nat}
    (hstage : c.committer.stage = .locking (q :: rest) waits)
    (hleft : waits + left = t.config.wait.retries) :
    match r.tryOnce t.config q.key id q.kind c.committer.discipline left with
    | (some outcome, s) =>
      Course id fetch (c, t) (c.granted? q rest (.ok outcome), t.put q.relation s)
    | (none, s) =>
      left ≠ 0 ∧
        Course id fetch (c, t)
          ({ c with committer := { c.committer with stage := .locking (q :: rest) (waits + 1) } },
            t.put q.relation s) := by
  have hgoes : c.Goes := by simp [Goes, hstage]
  have hnext : c.committer.nextMove fetch = .next := by simp [Committer.nextMove, hstage]
  have hreturned : c.committer.returned t .next = .ok () := by simp [Committer.returned, hstage]
  have hattempt : t.attempt q.relation q.key id q.kind c.committer.discipline =
      (.ok (r.attempt t.config q.key id q.kind c.committer.discipline).1,
        t.put q.relation (r.attempt t.config q.key id q.kind c.committer.discipline).2) := by
    rw [LockTable.attempt, LockTable.within_of_find? hr]
  have hstep : c.committer.step id t .next = c.committer.attempt id t q rest waits := by
    simp only [Committer.step, hstage]
  have hrefusal : c.committer.refusal? id t .next = c.committer.attemptRefusal? id t q waits := by
    simp only [Committer.refusal?, hstage]
  simp only [Committer.attempt, hattempt] at hstep
  simp only [Committer.attemptRefusal?, hattempt] at hrefusal
  simp only [RelationLocks.tryOnce]
  generalize r.attempt t.config q.key id q.kind c.committer.discipline = x at hstep hrefusal ⊢
  obtain ⟨a, s⟩ := x
  -- A request that is given up is withdrawn in the next move.
  have hdenied : ∀ outcome, outcome ≠ .granted →
      c.committer.step id t .next =
          ({ c.committer with stage := .withdrawing q }, t.put q.relation s) →
        c.committer.refusal? id t .next = Committer.denied q outcome →
          Course id fetch (c, t)
            (c.granted? q rest (.ok outcome), t.put q.relation (s.withdraw q.key id)) := by
    intro outcome hne hstep hrefusal
    refine .step hgoes hnext hstep ?_
    have hwithdraw := course_withdraw id fetch (t := t) s (c := { c with
      committer := { c.committer with stage := .withdrawing q }
      refusal := c.refusal.or (Committer.denied q outcome) }) rfl
    rw [hrefusal, hreturned, Fault.first_ok_right]
    cases outcome with
    | granted => exact absurd rfl hne
    | refused => exact hwithdraw
    | timedOut => exact hwithdraw
  cases a with
  | granted => exact .silent hgoes hnext hstep hrefusal hreturned .refl
  | refused => exact hdenied .refused (by decide) hstep hrefusal
  | wait =>
      by_cases hzero : left = 0
      · have hwaits : ¬waits < (t.put q.relation s).config.wait.retries := by
          rw [LockTable.config_put]
          omega
        simp only [if_neg hwaits] at hstep hrefusal
        simp only [if_pos hzero]
        exact hdenied .timedOut (by decide) hstep hrefusal
      · have hwaits : waits < (t.put q.relation s).config.wait.retries := by
          rw [LockTable.config_put]
          omega
        simp only [if_pos hwaits] at hstep hrefusal
        simp only [if_neg hzero]
        exact ⟨hzero, .silent hgoes hnext hstep hrefusal hreturned .refl⟩

/-- The attempts for one lock, until it is granted or refused or the time is up. -/
theorem course_acquireWithin {r : RelationLocks} (hr : t.find? q.relation = some r)
    {waits left : Nat} (hstage : c.committer.stage = .locking (q :: rest) waits)
    (hleft : waits + left = t.config.wait.retries) :
    Course id fetch (c, t)
      (c.granted? q rest
          (.ok (r.acquireWithin t.config q.key id q.kind c.committer.discipline left).1),
        t.put q.relation
          (r.acquireWithin t.config q.key id q.kind c.committer.discipline left).2) := by
  have htry := course_tryOnce id fetch hr hstage hleft
  induction left generalizing c t r waits with
  | zero =>
      simp only [RelationLocks.acquireWithin]
      generalize r.tryOnce t.config q.key id q.kind c.committer.discipline 0 = x at htry ⊢
      obtain ⟨a, s⟩ := x
      cases a with
      | some outcome => exact htry
      | none => exact absurd rfl htry.1
  | succ left ih =>
      simp only [RelationLocks.acquireWithin]
      generalize r.tryOnce t.config q.key id q.kind c.committer.discipline (left + 1) = x at htry ⊢
      obtain ⟨a, s⟩ := x
      cases a with
      | some outcome => exact htry
      | none =>
          have hs : (t.put q.relation s).find? q.relation = some s := by
            rw [LockTable.find?_put, if_pos rfl]
          have hwaits : waits + 1 + left = (t.put q.relation s).config.wait.retries := by
            rw [LockTable.config_put]
            omega
          have hlater := ih
            (c := { c with
              committer := { c.committer with stage := .locking (q :: rest) (waits + 1) } })
            hs rfl hwaits (course_tryOnce id fetch hs rfl hwaits)
          rw [LockTable.put_put] at hlater
          exact htry.2.trans hlater

/-- One lock is acquired. -/
theorem course_acquire_one (hstage : c.committer.stage = .locking (q :: rest) 0) :
    Course id fetch (c, t)
      (c.granted? q rest (t.acquire q.relation q.key id q.kind c.committer.discipline).1,
        (t.acquire q.relation q.key id q.kind c.committer.discipline).2) := by
  cases hr : t.find? q.relation with
  | none =>
      have hacquire : t.acquire q.relation q.key id q.kind c.committer.discipline =
          (.error (.unknownRelation q.relation), t) := by
        simp only [LockTable.acquire, LockTable.within, hr]
      have hattempt : t.attempt q.relation q.key id q.kind c.committer.discipline =
          (.error (.unknownRelation q.relation), t) := by
        simp only [LockTable.attempt, LockTable.within, hr]
      rw [hacquire]
      refine .step (m := .next) (k := c.committer.leave false) (s := t) ?_ ?_ ?_ ?_
      · simp [Goes, hstage]
      · simp [Committer.nextMove, hstage]
      · simp only [Committer.step, hstage, Committer.attempt, hattempt]
      · simp only [Committer.refusal?, Committer.returned, hstage, Committer.attemptRefusal?,
          hattempt, Fault.first_ok_right]
        exact .refl
  | some r =>
      rw [LockTable.acquire, LockTable.within_of_find? hr]
      exact course_acquireWithin id fetch hr hstage (Nat.zero_add _)

/-- The locks of a plan are acquired one after another, beside those that are held. -/
theorem course_acquireAll {plan : LockPlan} (hstage : c.committer.stage = .locking plan 0)
    (hclean : c.Clean) :
    ∃ c', Course id fetch (c, t)
        (c', (t.acquireAll id c.committer.discipline c.committer.held plan).2) ∧
      ComesTo (fun held => { c with
          committer := { c.committer with held, stage := .locking [] 0 } })
        (t.acquireAll id c.committer.discipline c.committer.held plan).1 c' := by
  induction plan generalizing c t with
  | nil =>
      have hsame : { c with
          committer := { c.committer with held := c.committer.held, stage := .locking [] 0 } } =
            c := by
        rw [← hstage]
      refine ⟨_, ?_, .onward c.committer.held⟩
      simp only [LockTable.acquireAll]
      rw [hsame]
  | cons q rest ih =>
      have hone := course_acquire_one id fetch (t := t) hstage
      simp only [LockTable.acquireAll]
      generalize t.acquire q.relation q.key id q.kind c.committer.discipline = x at hone ⊢
      obtain ⟨answer, s⟩ := x
      -- A lock that was not granted is a conflict, unless giving the others back fails.
      have hdenied : ∀ outcome conflict, q.conflict? outcome = some conflict →
          c.granted? q rest (.ok outcome) = { c with
            committer := c.committer.leave false
            refusal := c.refusal.or (Committer.denied q outcome) } →
          ∃ c', Course id fetch (c.granted? q rest (.ok outcome), s)
              (c', (s.releaseAll false c.committer.held).2) ∧
            c'.GivenUp ((s.releaseAll false c.committer.held).1.map fun _ => [conflict]) := by
        intro outcome conflict hconflict hgranted
        rw [hgranted]
        exact course_giveUp id fetch (r := .conflicts [conflict]) rfl
          (by rw [hclean.refusal, Committer.denied, hconflict]; rfl) hclean.returned hclean.stored
      cases answer with
      | error f =>
          obtain ⟨c', hback, hgiven⟩ := course_giveUp id fetch (t := s)
            (c := c.granted? q rest (.error f)) (r := .fault f) rfl
            (by simp only [granted?, hclean.refusal]; rfl) hclean.returned hclean.stored
          exact ⟨c', hone.trans hback, .failed f c' hgiven⟩
      | ok outcome =>
          cases houtcome : q.conflict? outcome with
          | none =>
              obtain rfl : outcome = .granted := by cases outcome <;> first | rfl | cases houtcome
              obtain ⟨c', hlater, hcomes⟩ :=
                ih (c := c.granted? q rest (.ok .granted)) (t := s) rfl
                  ⟨hclean.refusal, hclean.returned, hclean.stored⟩
              exact ⟨c', hone.trans hlater, hcomes⟩
          | some conflict =>
              obtain ⟨c', hback, hgiven⟩ := hdenied outcome conflict houtcome
                (by cases outcome <;> first | rfl | cases houtcome)
              simp only [houtcome]
              generalize s.releaseAll false c.committer.held = z at hback hgiven
              obtain ⟨ended, u⟩ := z
              cases ended with
              | ok _ => exact ⟨c', hone.trans hback, .denied [] conflict [] c' hgiven⟩
              | error f => exact ⟨c', hone.trans hback, .failed f c' hgiven⟩

/-- What a commit does before its validation is the acquisition of a guard for its plan. -/
theorem course_acquire (hstage : c.committer.stage = .idle) (hheld : c.committer.held = [])
    (hclean : c.Clean) :
    ∃ c', Course id fetch (c, t)
        (c', (Guard.acquire t c.committer.plan id c.committer.discipline).2) ∧
      ComesTo (fun g : Guard => { c with
          committer := { c.committer with
            held := g.held, stage := .validating c.committer.duties [] .unasked } })
        (Guard.acquire t c.committer.plan id c.committer.discipline).1 c' := by
  obtain ⟨c', hall, hcomes⟩ := course_acquireAll id fetch (t := t)
    (c := { c with committer := { c.committer with stage := .locking c.committer.plan 0 } }) rfl
    ⟨hclean.refusal, hclean.returned, hclean.stored⟩
  have hfirst : Course id fetch (c, t) (c', (t.acquireAll id c.committer.discipline
      c.committer.held c.committer.plan).2) := by
    refine .silent (m := .next) ?_ ?_ (by simp only [Committer.step, hstage]) ?_ ?_ hall
    · simp [Goes, hstage]
    · simp [Committer.nextMove, hstage]
    · simp [Committer.refusal?, hstage]
    · simp [Committer.returned, hstage]
  simp only [hheld] at hfirst hcomes
  simp only [Guard.acquire]
  generalize t.acquireAll id c.committer.discipline [] c.committer.plan = x at hfirst hcomes ⊢
  obtain ⟨result, s⟩ := x
  cases hcomes with
  | failed f _ h => exact ⟨c', hfirst, .failed f c' h⟩
  | denied held conflict found _ h =>
      exact ⟨c', hfirst, .denied (⟨id, held⟩ : Guard) conflict found c' h⟩
  | onward held =>
      refine ⟨_, hfirst.trans ?_, .onward (⟨id, held⟩ : Guard)⟩
      exact Course.silent (m := .next) (by simp [Goes]) rfl rfl rfl rfl .refl

end Acquire

section Validate
variable {o : Obligation} {rest : List Obligation} {found : List Conflict}

/-- A commit after the question for the version of one obligation has been answered. -/
def answered (c : CommitCall) (o : Obligation) (observed : Nat) (rest : List Obligation)
    (found : List Conflict) : Except Fault (Option Nat) → CommitCall
  | .ok current => { c with committer := c.committer.compare o observed rest found current }
  | .error f =>
    { c with committer := c.committer.leave false, refusal := c.refusal.or (some (.fault f)) }

/-- Where no version is known the store is asked, and what it tells becomes known. -/
theorem course_ask {r : RelationLocks} {observed : Nat} (h : t.InOrder)
    (hr : t.find? o.relation = some r) (hv : r.version? o.key = none)
    (hobserved : o.observed = some observed)
    (hstage : c.committer.stage = .validating (o :: rest) found .asking) :
    Course id fetch (c, t)
      (c.answered o observed rest found
          (r.currentVersion t.config o.key (fetch o.relation o.key)).1.version,
        t.put o.relation (r.currentVersion t.config o.key (fetch o.relation o.key)).2) := by
  have hgoes : c.Goes := by simp [Goes, hstage]
  have hsame : t.put o.relation r = t := h.put_self hr
  have hnext : c.committer.nextMove fetch = .answer (fetch o.relation o.key) := by
    simp only [Committer.nextMove, hstage]
  simp only [RelationLocks.currentVersion, hv]
  cases hfetch : fetch o.relation o.key with
  | error f =>
      rw [hfetch] at hnext
      refine .step (k := c.committer.leave false) (s := t) hgoes hnext ?_ ?_
      · simp only [Committer.step, hstage, Committer.check, hobserved, Committer.hear]
      · simp only [Committer.refusal?, hstage, Committer.checkFault?, hobserved, Fault.of?,
          Committer.returned, Fault.first_ok_right, hsame]
        exact .refl
  | ok answer =>
      rw [hfetch] at hnext
      have hrefusal : c.committer.refusal? id t (.answer (.ok answer)) = none := by
        simp only [Committer.refusal?, hstage, Committer.checkFault?, hobserved, Fault.of?,
          Option.map_none]
      have hreturned : c.committer.returned t (.answer (.ok answer)) = .ok () := by
        simp only [Committer.returned, hstage]
      cases answer with
      | none =>
          refine .silent (k := c.committer.compare o observed rest found none) (s := t) hgoes hnext
            ?_ hrefusal hreturned ?_
          · simp only [Committer.step, hstage, Committer.check, hobserved, Committer.hear]
          · simp only [hsame]
            exact .refl
      | some w =>
          have hobserve : (t.observeVersion o.relation o.key w).2 =
              t.put o.relation (r.observeVersion t.config o.key w) := by
            rw [LockTable.observeVersion, LockTable.within_of_find? hr]
          have hlearned := LockTable.version?_put_observe t o.relation hv w
          -- The version is told, becomes known, and is read again.
          refine .silent (s := t)
            (k := { c.committer with stage := .validating (o :: rest) found (.told w) }) hgoes hnext
            ?_ hrefusal hreturned ?_
          · simp only [Committer.step, hstage, Committer.check, hobserved, Committer.hear]
          refine .silent (m := .next) (by simp [Goes]) rfl ?_ ?_ rfl ?_
            (s := t.put o.relation (r.observeVersion t.config o.key w))
            (k := { c.committer with stage := .validating (o :: rest) found .learned })
          · simp only [Committer.step, Committer.check, hobserved, hobserve]
          · simp only [Committer.refusal?, Committer.checkFault?, hobserved]
            rfl
          refine .silent (m := .next) (by simp [Goes]) rfl ?_ ?_ rfl .refl
          · simp only [Committer.step, Committer.check, hobserved, Committer.look, hlearned]
            rfl
          · simp only [Committer.refusal?, Committer.checkFault?, hobserved, hlearned]
            rfl

/-- The version of one obligation is looked up, asked from the store where none is known, and
compared. -/
theorem course_currentVersion (h : t.InOrder) {observed : Nat}
    (hobserved : o.observed = some observed)
    (hstage : c.committer.stage = .validating (o :: rest) found .unasked) :
    Course id fetch (c, t)
      (c.answered o observed rest found
          (t.currentVersion o.relation o.key (fetch o.relation o.key)).1.version,
        (t.currentVersion o.relation o.key (fetch o.relation o.key)).2) := by
  have hgoes : c.Goes := by simp [Goes, hstage]
  have hnext : c.committer.nextMove fetch = .next := by simp [Committer.nextMove, hstage]
  have hreturned : c.committer.returned t .next = .ok () := by simp [Committer.returned, hstage]
  have hstep : c.committer.step id t .next =
      (c.committer.look t o observed rest found
        { c.committer with stage := .validating (o :: rest) found .asking }, t) := by
    simp only [Committer.step, hstage, Committer.check, hobserved]
  have hrefusal : c.committer.refusal? id t .next =
      (Fault.of? (t.version? o.relation o.key)).map .fault := by
    simp only [Committer.refusal?, hstage, Committer.checkFault?, hobserved]
  cases hr : t.find? o.relation with
  | none =>
      have hcurrent : t.currentVersion o.relation o.key (fetch o.relation o.key) =
          (⟨.error (.unknownRelation o.relation), false⟩, t) := by
        simp only [LockTable.currentVersion, LockTable.within, hr]
      have hversion : t.version? o.relation o.key = .error (.unknownRelation o.relation) := by
        simp only [LockTable.version?, LockTable.relation, hr, Except.map]
      rw [hversion] at hrefusal
      simp only [Committer.look, hversion] at hstep
      refine .step hgoes hnext hstep ?_
      rw [hrefusal, hreturned, hcurrent, Fault.first_ok_right]
      exact .refl
  | some r =>
      have hversion : t.version? o.relation o.key = .ok (r.version? o.key) := by
        simp only [LockTable.version?, LockTable.relation, hr, Except.map]
      rw [hversion] at hrefusal
      simp only [LockTable.currentVersion]
      rw [LockTable.within_of_find? hr]
      cases hv : r.version? o.key with
      | some w =>
          simp only [Committer.look, hversion, hv] at hstep
          simp only [RelationLocks.currentVersion, hv, h.put_self hr]
          exact .silent hgoes hnext hstep hrefusal hreturned .refl
      | none =>
          simp only [Committer.look, hversion, hv] at hstep
          exact .silent hgoes hnext hstep hrefusal hreturned
            (course_ask id fetch h hr hv hobserved rfl)

/-- A commit after its validation. -/
def checked (c : CommitCall) (compared : List (Obligation × Option Nat)) (found : List Conflict) :
    Except Fault (List Conflict) → CommitCall
  | .ok later =>
    { c with
      committer := { c.committer with
        compared, stage := .validating [] (found ++ later) .unasked } }
  | .error f =>
    { c with
      committer := { c.committer with compared, stage := .releasing false }
      refusal := some (.fault f) }

/-- The conflicts of one obligation come before those of the later ones. -/
theorem checked_answered (c : CommitCall) (o : Obligation) (observed : Nat)
    (rest : List Obligation) (found : List Conflict) (current : Option Nat)
    (compared : List (Obligation × Option Nat)) (later : Except Fault (List Conflict)) :
    (c.answered o observed rest found (.ok current)).checked compared
        (found ++ LockTable.staleness o observed current) later =
      c.checked compared found (later.map (LockTable.staleness o observed current ++ ·)) := by
  cases later with
  | error f => rfl
  | ok later => simp only [checked, answered, Committer.compare, Except.map, List.append_assoc]

/-- What a commit does in its validation is the validation of its obligations in order. -/
theorem course_validate (h : t.InOrder) {os : List Obligation}
    (hstage : c.committer.stage = .validating os found .unasked) (hrefusal : c.refusal = none) :
    ∃ compared, Course id fetch (c, t)
      (c.checked compared found (t.validate fetch os).conflicts, (t.validate fetch os).table) := by
  induction os generalizing c t found with
  | nil =>
      have hsame : c.checked c.committer.compared found (.ok []) = c := by
        simp only [checked, List.append_nil, ← hstage]
      refine ⟨c.committer.compared, ?_⟩
      simp only [LockTable.validate]
      rw [hsame]
  | cons o rest ih =>
      cases hobserved : o.observed with
      | none =>
          obtain ⟨compared, hrest⟩ := ih h (c := { c with
            committer := { c.committer with stage := .validating rest found .unasked } }) rfl
            hrefusal
          refine ⟨compared, ?_⟩
          simp only [LockTable.validate, hobserved]
          refine .silent (m := .next) ?_ ?_ ?_ ?_ ?_ hrest
          · simp [Goes, hstage]
          · simp [Committer.nextMove, hstage]
          · simp only [Committer.step, hstage, Committer.check, hobserved]
          · simp only [Committer.refusal?, hstage, Committer.checkFault?, hobserved,
              Option.map_none]
          · simp [Committer.returned, hstage]
      | some observed =>
          have hone := course_currentVersion id fetch h hobserved hstage
          have horder := h.of_reaches
            (t.reaches_currentVersion o.relation o.key (fetch o.relation o.key))
          simp only [LockTable.validate, hobserved]
          generalize t.currentVersion o.relation o.key (fetch o.relation o.key) = x at hone horder ⊢
          obtain ⟨⟨answer, asked⟩, s⟩ := x
          cases answer with
          | error f =>
              refine ⟨c.committer.compared, ?_⟩
              simp only [answered, hrefusal] at hone
              exact hone
          | ok current =>
              obtain ⟨compared, hrest⟩ := ih (c := c.answered o observed rest found (.ok current))
                horder rfl hrefusal
              refine ⟨compared, hone.trans ?_⟩
              rw [checked_answered] at hrest
              exact hrest

/-- A commit with conflicts gives its locks back. -/
theorem course_refuse {conflict : Conflict}
    (hstage : c.committer.stage = .validating [] (conflict :: found) .unasked) (hclean : c.Clean) :
    ∃ c' : CommitCall,
      Course id fetch (c, t) (c', (t.releaseAll false c.committer.held).2) ∧
        c'.GivenUp ((t.releaseAll false c.committer.held).1.map fun _ => conflict :: found) := by
  obtain ⟨c', hback, hgiven⟩ := course_giveUp id fetch (t := t)
    (c := { c with
      committer := c.committer.leave false, refusal := some (.conflicts (conflict :: found)) })
    (r := .conflicts (conflict :: found)) rfl rfl hclean.returned hclean.stored
  refine ⟨c', .step (m := .next) (k := c.committer.leave false) (s := t) ?_ ?_ ?_ ?_, hgiven⟩
  · simp [Goes, hstage]
  · simp [Committer.nextMove, hstage]
  · simp only [Committer.step, hstage, if_neg (List.cons_ne_nil conflict found)]
  · simp only [Committer.refusal?, Committer.returned, hstage, hclean.refusal, Option.none_or,
      Fault.first_ok_right]
    exact hback

end Validate

end CommitCall

namespace Race

/-- A course of one commit is a course of a race in which the others rest. -/
theorem run_of_course (r : Race) {id : Nat} {fetch : VersionSource} {c : CommitCall}
    {y : CommitCall × LockTable} (hparty : r.parties id = c.committer)
    (h : CommitCall.Course id fetch (c, r.table) y) :
    ∃ moves : List CommitMove, r.run (moves.map (id, ·)) =
      { table := y.2, parties := Function.update r.parties id y.1.committer } := by
  induction h with
  | refl => exact ⟨[], by simp [run, ← hparty]⟩
  | @tail x y _ hmove ih =>
      obtain ⟨moves, hmoves⟩ := ih
      obtain ⟨-, rfl⟩ := hmove
      refine ⟨moves ++ [x.1.committer.nextMove fetch], ?_⟩
      rw [List.map_append, run_append, hmoves]
      simp [run, take, CommitCall.visit]

end Race

end LiveIsolation
