import LiveIsolation.Engine.Boundary
import LiveIsolation.Proofs.LockTable.WaitOrder
import LiveIsolation.Proofs.LockTable.Whole

/-!
# What comes of a commit

A commit that makes one visit to a lock at a time (`Committer.step`) hears something at each of
them: that a lock is refused or does not come in time, that a relation is not known, or that a lock
which it gives back was not held. The first of these that keeps the transaction from its commit
(`Refusal`) is kept apart from faults in giving the locks back, since a conflict is only reported if
all locks could be given back.
-/

namespace LiveIsolation

/-- The fault of a result. -/
def Fault.of? {α : Type} : Except Fault α → Option Fault
  | .error f => some f
  | .ok _ => none

/-- Why a transaction is given up instead of committed. -/
inductive Refusal where
  | fault (f : Fault)
  | conflicts (found : List Conflict)
  deriving DecidableEq, Repr

namespace Committer

/-- What the outcome of a request for a lock means for the transaction. -/
def denied (q : LockRequest) (outcome : AcquireOutcome) : Option Refusal :=
  (q.conflict? outcome).map fun conflict => .conflicts [conflict]

/-- What becomes clear from an attempt to take a lock, after the commit was told to wait for it a
number of times. -/
def attemptRefusal? (c : Committer) (id : Nat) (t : LockTable) (q : LockRequest) (waits : Nat) :
    Option Refusal :=
  match t.attempt q.relation q.key id q.kind c.discipline with
  | (.error f, _) => some (.fault f)
  | (.ok .granted, _) => none
  | (.ok .refused, _) => denied q .refused
  | (.ok .wait, t) => if waits < t.config.wait.retries then none else denied q .timedOut

/-- The fault of a move in the validation of an obligation. -/
def checkFault? (t : LockTable) (o : Obligation) (lookup : Lookup) (move : CommitMove) :
    Option Fault :=
  match o.observed, lookup, move with
  | some _, .unasked, .next => Fault.of? (t.version? o.relation o.key)
  | some _, .asking, .answer version => Fault.of? version
  | some _, .learned, .next => Fault.of? (t.version? o.relation o.key)
  | _, _, _ => none

/-- What becomes clear in a move of a commit. -/
def refusal? (c : Committer) (id : Nat) (t : LockTable) (move : CommitMove) : Option Refusal :=
  match c.stage, move with
  | .locking (q :: _) waits, .next => c.attemptRefusal? id t q waits
  | .validating (o :: _) _ lookup, move => (checkFault? t o lookup move).map .fault
  | .validating [] (conflict :: found) _, .next => some (.conflicts (conflict :: found))
  | _, _ => none

/-- What a move comes to that gives a lock back. -/
def returned (c : Committer) (t : LockTable) (move : CommitMove) : Except Fault Unit :=
  match c.stage, c.held, move with
  | .releasing advance, q :: _, .next =>
    (t.release q.relation q.key q.kind advance).1.map fun _ => ()
  | _, _, _ => .ok ()

/-- The next move of a commit, with what the store answers if it is asked for a version. -/
def nextMove (c : Committer) (fetch : VersionSource) : CommitMove :=
  match c.stage with
  | .validating (o :: _) _ .asking => .answer (fetch o.relation o.key)
  | _ => .next

end Committer

/-- The commit of a transaction with what has come of it so far. -/
structure CommitCall where
  committer : Committer
  /-- Why the transaction will be given up, once this is clear. -/
  refusal : Option Refusal := none
  /-- The first fault in giving locks back or in making versions known. -/
  returned : Except Fault Unit := .ok ()
  /-- If the store has committed, the written rows whose versions have still to be made known. -/
  stored : Option (List (Place × Nat)) := none

/-- A commit visits a lock, or hears of a version. -/
def CommitCall.visit (c : CommitCall) (id : Nat) (t : LockTable) (move : CommitMove) :
    CommitCall × LockTable :=
  let (committer, t') := c.committer.step id t move
  ({ c with
    committer
    refusal := c.refusal.or (c.committer.refusal? id t move)
    returned := Fault.first c.returned (c.committer.returned t move) }, t')

/-- A transaction is given up for conflicts that there are, or because the store failed. -/
def Refusal.Proper : Refusal → Prop
  | .fault f => f.cls = .store
  | .conflicts found => found ≠ []

/-- Nothing more is locked or validated. -/
def CommitStage.over : CommitStage → Bool
  | .withdrawing _ | .releasing _ | .ended => true
  | .idle | .locking .. | .validating .. => false

/-- What a commit still has to lock or to validate is in some relations. -/
def CommitStage.Within (known : List String) : CommitStage → Prop
  | .locking rest _ => ∀ q ∈ rest, q.relation ∈ known
  | .validating rest _ _ => ∀ o ∈ rest, o.relation ∈ known
  | _ => True

namespace Committer

variable {c : Committer} {id : Nat} {t : LockTable} {q : LockRequest} {o : Obligation}
  {known : List String} {r : Refusal}

/-- All that a commit asks for is in some relations. -/
structure Within (c : Committer) (known : List String) : Prop where
  duties : ∀ o ∈ c.duties, o.relation ∈ known
  stage : c.stage.Within known

section Step

theorem within_attempt {rest : LockPlan} (h : ∀ x ∈ q :: rest, x.relation ∈ known) (id : Nat)
    (t : LockTable) (waits : Nat) : (c.attempt id t q rest waits).1.stage.Within known := by
  simp only [attempt]
  split
  · exact trivial
  · exact fun x hx => h x (List.mem_cons_of_mem _ hx)
  · exact trivial
  · split
    · exact h
    · exact trivial

theorem within_check {rest : List Obligation} (h : ∀ x ∈ o :: rest, x.relation ∈ known)
    {found : List Conflict} {lookup : Lookup}
    (hstage : c.stage = .validating (o :: rest) found lookup) (t : LockTable) (move : CommitMove) :
    (c.check t o rest found lookup move).1.stage.Within known := by
  have hrest : ∀ x ∈ rest, x.relation ∈ known := fun x hx => h x (List.mem_cons_of_mem _ hx)
  have hlook : ∀ v (otherwise : Committer), otherwise.stage.Within known →
      (c.look t o v rest found otherwise).stage.Within known := by
    intro v otherwise hother
    simp only [look]
    split
    · exact hrest
    · exact hother
    · exact trivial
  simp only [check]
  split
  · exact hrest
  · exact hlook _ _ h
  · simp only [hear]
    split
    · exact h
    · exact hrest
    · exact trivial
  · exact h
  · exact hlook _ _ hrest
  · rw [hstage]
    exact h

/-- A commit goes on with what it had to do. -/
theorem Within.stage_step (h : c.Within known) (id : Nat) (t : LockTable) (move : CommitMove) :
    (c.step id t move).1.stage.Within known := by
  have hself := h.stage
  have hplan : ∀ q ∈ c.plan, q.relation ∈ known := by
    intro q hq
    obtain ⟨o, ho, hrelation⟩ := LockPlan.exists_of_mem_ofObligations hq
    exact hrelation ▸ h.duties o ho
  simp only [step]
  split
  · exact hplan
  · exact h.duties
  · rename_i q rest waits hstage
    rw [hstage] at hself
    exact within_attempt hself id t waits
  · exact trivial
  · exact trivial
  · split
    · exact hself
    · exact trivial
  · rename_i o rest found lookup hstage _
    rw [hstage] at hself
    exact within_check hself hstage t _
  · simp only [giveBack]
    split
    · exact trivial
    · exact hself
  · exact hself

theorem Within.step (h : c.Within known) (ho : c.Orderly) (hfit : t.Fit []) (id : Nat)
    (move : CommitMove) : (c.step id t move).1.Within known := by
  have hmoved := moved_step ho hfit id move
  refine ⟨?_, h.stage_step id t move⟩
  rw [Committer.duties, hmoved.discipline, hmoved.obligations]
  exact h.duties

end Step

section Refusal

theorem proper_denied {outcome : AcquireOutcome} (h : denied q outcome = some r) : r.Proper := by
  obtain ⟨conflict, -, rfl⟩ := Option.map_eq_some_iff.1 h
  exact List.cons_ne_nil _ _

/-- An attempt for a lock of a known relation is answered. -/
theorem attempt_of_known (h : t.Fit known) (hq : q.relation ∈ known) (id : Nat) (d : Discipline)
    (f : Fault) : (t.attempt q.relation q.key id q.kind d).1 ≠ .error f := by
  obtain ⟨s, hs⟩ := h.knows q.relation hq
  rw [LockTable.attempt, LockTable.within_of_find? hs]
  intro herror
  cases herror

theorem proper_attempt (h : t.Fit known) (hq : q.relation ∈ known) {waits : Nat}
    (hr : c.attemptRefusal? id t q waits = some r) : r.Proper := by
  simp only [attemptRefusal?] at hr
  split at hr
  · rename_i f _ herror
    exact absurd (congrArg Prod.fst herror) (attempt_of_known h hq id _ f)
  · cases hr
  · exact proper_denied hr
  · split at hr
    · cases hr
    · exact proper_denied hr

/-- In the validation of a row of a known relation only the store can fail. -/
theorem store_of_checkFault? (h : t.Fit known) (ho : o.relation ∈ known) {lookup : Lookup}
    {move : CommitMove} (hmove : ∀ f, move = .answer (.error f) → f.cls = .store) {f : Fault}
    (hf : checkFault? t o lookup move = some f) : f.cls = .store := by
  have hversion : Fault.of? (t.version? o.relation o.key) = none := by
    rw [show t.version? o.relation o.key = .ok (t.cached? o.place) from
      LockTable.version?_of_known (p := o.place) h ho]
    rfl
  simp only [checkFault?] at hf
  split at hf
  · rw [hversion] at hf
    cases hf
  · rename_i version _
    cases version with
    | ok v => cases hf
    | error g => exact hmove f (Option.some.inj hf ▸ rfl)
  · rw [hversion] at hf
    cases hf
  · cases hf

/-- Over known relations a transaction is given up for conflicts, or because the store failed. -/
theorem Within.proper (h : c.Within known) (hfit : t.Fit known) {move : CommitMove}
    (hmove : ∀ f, move = .answer (.error f) → f.cls = .store)
    (hr : c.refusal? id t move = some r) : r.Proper := by
  have hstage := h.stage
  simp only [refusal?] at hr
  split at hr
  · rename_i q rest waits hlocking
    rw [hlocking] at hstage
    exact proper_attempt hfit (hstage q List.mem_cons_self) hr
  · rename_i o rest found lookup hvalidating
    rw [hvalidating] at hstage
    obtain ⟨f, hf, rfl⟩ := Option.map_eq_some_iff.1 hr
    exact store_of_checkFault? hfit (hstage o List.mem_cons_self) hmove hf
  · cases hr
    exact List.cons_ne_nil _ _
  · cases hr

end Refusal

section Over

/-- A commit that has come to an end with its locks does not take any again. -/
theorem over_step (h : c.stage.over = true) (id : Nat) (t : LockTable) (move : CommitMove) :
    (c.step id t move).1.stage.over = true := by
  cases hstage : c.stage with
  | idle | locking | validating =>
      rw [hstage] at h
      cases h
  | withdrawing q =>
      cases move with
      | next => simp only [step, hstage]; rfl
      | answer | finish => simpa only [step, hstage] using h
  | releasing advance =>
      cases move with
      | next =>
          simp only [step, hstage, giveBack]
          split
          · rfl
          · rfl
      | answer | finish => simpa only [step, hstage] using h
  | ended => simpa only [step, hstage] using h

theorem attemptRefusal?_isSome {rest : LockPlan} {waits : Nat}
    (hafter : (c.attempt id t q rest waits).1.stage.over = true) :
    (c.attemptRefusal? id t q waits).isSome = true := by
  simp only [attempt] at hafter
  simp only [attemptRefusal?]
  generalize t.attempt q.relation q.key id q.kind c.discipline = x at hafter ⊢
  obtain ⟨answer, t'⟩ := x
  split at hafter
  · rename_i heq
    cases heq
    rfl
  · cases hafter
  · rename_i heq
    cases heq
    rfl
  · rename_i heq
    cases heq
    split at hafter
    · cases hafter
    · rename_i hwaits
      simp only [if_neg hwaits]
      rfl

theorem checkFault?_isSome {rest : List Obligation} {found : List Conflict} {lookup : Lookup}
    {move : CommitMove} (hstage : c.stage = .validating (o :: rest) found lookup)
    (hafter : (c.check t o rest found lookup move).1.stage.over = true) :
    (checkFault? t o lookup move).isSome = true := by
  have hlook : ∀ v (otherwise : Committer), otherwise.stage.over = false →
      (c.look t o v rest found otherwise).stage.over = true →
        (Fault.of? (t.version? o.relation o.key)).isSome = true := by
    intro v otherwise hother h
    simp only [look] at h
    split at h
    · cases h
    · cases hother.symm.trans h
    · rename_i f hversion
      rw [hversion]
      rfl
  simp only [check] at hafter
  split at hafter
  · cases hafter
  · rename_i v hobserved
    simp only [checkFault?, hobserved]
    exact hlook v _ rfl hafter
  · rename_i version hobserved
    simp only [hear] at hafter
    simp only [checkFault?, hobserved]
    split at hafter
    · cases hafter
    · cases hafter
    · rfl
  · cases hafter
  · rename_i v hobserved
    simp only [checkFault?, hobserved]
    exact hlook v _ rfl hafter
  · rw [hstage] at hafter
    cases hafter

/-- A commit goes on to lock and to validate unless it becomes clear why it cannot. -/
theorem refusal?_isSome (hbefore : c.stage.over = false) {move : CommitMove}
    (hmove : ∀ advance, move ≠ .finish advance)
    (hafter : (c.step id t move).1.stage.over = true) : (c.refusal? id t move).isSome = true := by
  have hself : (c, t).1.stage.over ≠ true := by simp [hbefore]
  cases hstage : c.stage with
  | withdrawing | releasing | ended =>
      rw [hstage] at hbefore
      cases hbefore
  | idle =>
      cases move with
      | next =>
          simp only [step, hstage] at hafter
          cases hafter
      | answer | finish => exact absurd (by simpa only [step, hstage] using hafter) hself
  | locking rest waits =>
      cases move with
      | answer | finish => exact absurd (by simpa only [step, hstage] using hafter) hself
      | next =>
          cases rest with
          | nil =>
              simp only [step, hstage] at hafter
              cases hafter
          | cons q rest =>
              simp only [step, hstage] at hafter
              simp only [refusal?, hstage]
              exact attemptRefusal?_isSome hafter
  | validating rest found lookup =>
      cases move with
      | finish advance => exact absurd rfl (hmove advance)
      | next =>
          cases rest with
          | nil =>
              cases found with
              | nil => exact absurd (by simpa only [step, hstage, if_true] using hafter) hself
              | cons conflict found => simp only [refusal?, hstage]; rfl
          | cons o rest =>
              simp only [step, hstage] at hafter
              simp only [refusal?, hstage, Option.isSome_map]
              exact checkFault?_isSome hstage hafter
      | answer version =>
          cases rest with
          | nil => exact absurd (by simpa only [step, hstage] using hafter) hself
          | cons o rest =>
              simp only [step, hstage] at hafter
              simp only [refusal?, hstage, Option.isSome_map]
              exact checkFault?_isSome hstage hafter

end Over

/-- What a commit asks the table in a move. -/
theorem reaches_step (c : Committer) (id : Nat) (t : LockTable) (move : CommitMove) :
    t.Reaches (c.step id t move).2 := by
  have hself := LockTable.Reaches.refl t
  simp only [step]
  split
  · exact hself
  · exact hself
  · rename_i q rest waits _
    have hattempt : t.Reaches (t.attempt q.relation q.key id q.kind c.discipline).2 :=
      t.reaches_serve ⟨q.relation, q.key, .attempt id q.kind c.discipline⟩
    simp only [attempt]
    generalize t.attempt q.relation q.key id q.kind c.discipline = x at hattempt
    obtain ⟨answer, t'⟩ := x
    split
    · rename_i heq
      cases heq
      exact hattempt
    · rename_i heq
      cases heq
      exact hattempt
    · rename_i heq
      cases heq
      exact hattempt
    · rename_i heq
      cases heq
      split
      · exact hattempt
      · exact hattempt
  · rename_i q _
    exact t.reaches_serve ⟨q.relation, q.key, .withdraw id⟩
  · exact hself
  · exact hself
  · rename_i o rest found lookup _ _
    simp only [check]
    split
    · exact hself
    · exact hself
    · exact hself
    · exact t.reaches_serve ⟨o.relation, o.key, .observeVersion _⟩
    · exact hself
    · exact hself
  · simp only [giveBack]
    split
    · exact hself
    · exact t.reaches_release _ _
  · exact hself

end Committer

/-- A lock that a commit gives back was held. -/
theorem Race.Tallied.returned_eq_ok {r : Race} (h : r.Tallied) (id : Nat) (move : CommitMove) :
    (r.parties id).returned r.table move = .ok () := by
  simp only [Committer.returned]
  split
  · rename_i advance q rest _ hheld
    have hq : (r.parties id).Holds q.place q.kind := by
      rw [Committer.Holds, hheld]
      exact List.mem_cons_self
    obtain ⟨n, hcount⟩ := h.hold?_eq hq
    obtain ⟨v, t', hrelease, -⟩ := LockTable.release_of_hold? (p := q.place) h.fit hcount advance
    rw [show r.table.release q.relation q.key q.kind advance = _ from hrelease]
    rfl
  · rfl

namespace CommitCall

variable {c : CommitCall} {id : Nat} {t : LockTable} {known : List String} {move : CommitMove}

/-- A commit is about known relations, and nothing has gone wrong with it. Why it is given up is
clear as soon as it locks and validates nothing more, unless the store has committed. -/
structure Proper (c : CommitCall) (known : List String) : Prop where
  within : c.committer.Within known
  spent : c.committer.Spent
  refusal : ∀ r, c.refusal = some r → r.Proper
  returned : c.returned = .ok ()
  stored : ∀ rows, c.stored = some rows → ∀ x ∈ rows, x.1.1 ∈ known
  settled : c.stored.isSome = true → c.committer.stage.over = true
  clear : c.committer.stage.over = true → c.stored.isSome = true ∨ c.refusal.isSome = true

theorem Proper.visit (h : c.Proper known) (horderly : c.committer.Orderly) (hfit : t.Fit known)
    (hreturned : c.committer.returned t move = .ok ())
    (hfetched : ∀ f, move = .answer (.error f) → f.cls = .store)
    (hmove : ∀ advance, move ≠ .finish advance) : (c.visit id t move).1.Proper known where
  within := h.within.step horderly ⟨hfit.sorted, nofun⟩ id move
  spent := h.spent.step id t move
  refusal r hr := by
    rcases Option.or_eq_some_iff.1 hr with hr | ⟨-, hr⟩
    · exact h.refusal r hr
    · exact h.within.proper hfit hfetched hr
  returned := by
    change Fault.first c.returned (c.committer.returned t move) = .ok ()
    rw [h.returned, hreturned]
    rfl
  stored := h.stored
  settled hstored := Committer.over_step (h.settled hstored) id t move
  clear hover := by
    change _ ∨ (c.refusal.or (c.committer.refusal? id t move)).isSome = true
    rw [Option.isSome_or]
    cases hbefore : c.committer.stage.over with
    | true => exact (h.clear hbefore).imp_right fun hr => by rw [hr, Bool.true_or]
    | false =>
        right
        rw [Committer.refusal?_isSome hbefore hmove hover, Bool.or_true]

end CommitCall

end LiveIsolation
