import LiveIsolation.Proofs.LockTable.Holders
import LiveIsolation.Proofs.LockTable.Race
import LiveIsolation.Proofs.LockTable.Words
import Mathlib.Algebra.GroupWithZero.Nat

/-!
# The versions that a lock table counts

Requesters call a lock table themselves, and guards take the locks of their plans one after
another and give them back. Between any two visits to a lock others may come, in whatever order
(`Traffic.run`). As long as requesters give back only what they have been granted, every lock
counts as many holders as there are (`Traffic.Balanced`), so that nothing a guard gives back is
turned down. The versions are therefore an exact account of the guards that were given back
after a commit (`Traffic.versions_account`). Holders are counted and versions kept in words, and
the account is exact as long as no number leaves its word on the way (`Traffic.Fitting`).

## Implementation notes

A guard is a commit that has nothing to validate, so its moves are those of commits side by side
(`Committer.step`), with any plan. One that nobody disturbs takes its locks as
`LockTable.acquireAll` does and gives them back as `LockTable.releaseAll` does
(`CommitCall.course_acquireAll`, `CommitCall.course_releaseAll`). A call is served without a break.
An acquisition that others break into is a list of attempts with the withdrawal as a call of its
own, and a question for a version that is not known is a reading, a call that makes the answer
known, and another reading.
-/

namespace LiveIsolation

namespace Committer

variable {c : Committer} {t : LockTable} {id : Nat} {move : CommitMove}

/-- A guard for the locks of a plan, before it has taken any. -/
def ofPlan (d : Discipline) (plan : LockPlan) : Committer where
  discipline := d
  obligations := {}
  stage := .locking plan 0

/-- The commit has nothing to validate. -/
structure Dutiless (c : Committer) : Prop where
  duties : c.duties = []
  at_stage :
    match c.stage with
    | .idle => False
    | .validating rest found _ => rest = [] ∧ found = []
    | _ => True

/-- How often the version of a row has still to be advanced by a guard that is being given back. -/
def owed (c : Committer) (p : Place) : Nat :=
  match c.stage with
  | .releasing true => c.held.count ⟨p.1, p.2, .exclusive⟩
  | _ => 0

/-- The exclusive requests for a row in a guard that a move begins to give back after a commit. -/
def committed (c : Committer) (p : Place) (move : CommitMove) : Nat :=
  match c.stage, move with
  | .validating .., .finish true => c.held.count ⟨p.1, p.2, .exclusive⟩
  | _, _ => 0

/-- What a move of a guard makes of its holds and of the table. -/
inductive Grip (c : Committer) (t : LockTable) (move : CommitMove) :
    Committer × LockTable → Prop where
  | kept (c' : Committer) (t' : LockTable) (hheld : c'.held = c.held)
    (howed : ∀ p, c'.owed p = c.owed p + c.committed p move)
    (hhold : t'.hold? = t.hold?) (hcached : t'.cached? = t.cached?) : Grip c t move (c', t')
  | took (c' : Committer) (t' : LockTable) (q : LockRequest) (hheld : c'.held = c.held ++ [q])
    (howed : ∀ p, c'.owed p = c.owed p + c.committed p move)
    (hhold : t'.hold? = Function.update t.hold? q.place (Lock.joined (t.hold? q.place) q.kind))
    (hkind : ∀ k n, t.hold? q.place = some (k, n) → k = q.kind)
    (hcached : t'.cached? = t.cached?) : Grip c t move (c', t')
  | gaveBack (c' : Committer) (q : LockRequest) (advance : Bool)
    (hstage : c.stage = .releasing advance) (hstage' : c'.stage = .releasing advance)
    (hheld : c.held = q :: c'.held) :
    Grip c t move (c', (t.release q.relation q.key q.kind advance).2)

/-- What a move of a guard comes to: at most one call, and what it makes of the holds. -/
structure Visit (c : Committer) (t : LockTable) (move : CommitMove) (x : Committer × LockTable) :
    Prop where
  dutiless : x.1.Dutiless
  table : x.2 = t ∨ ∃ call, x.2 = (t.serve call).2
  grip : c.Grip t move x

/-- A move that leaves the table alone. -/
theorem visit_stage {stage : CommitStage} (hstage : ({ c with stage } : Committer).Dutiless)
    (howed : ∀ p, ({ c with stage } : Committer).owed p = c.owed p + c.committed p move) :
    c.Visit t move ({ c with stage }, t) where
  dutiless := hstage
  table := .inl rfl
  grip := .kept _ _ rfl howed rfl rfl

theorem Dutiless.leave (h : c.Dutiless) (advance : Bool) : (c.leave advance).Dutiless :=
  ⟨h.duties, trivial⟩

theorem Dutiless.visit_attempt (h : c.Dutiless) (hfit : t.Fit []) {q : LockRequest}
    {rest : LockPlan} {waits : Nat} (hs : c.stage = .locking (q :: rest) waits) :
    c.Visit t .next (c.attempt id t q rest waits) := by
  have hnone : ∀ p, c.owed p + c.committed p .next = 0 := by simp [owed, committed, hs]
  have hcall : ∃ call, (t.attempt q.relation q.key id q.kind c.discipline).2 =
      (t.serve call).2 := ⟨⟨q.relation, q.key, .attempt id q.kind c.discipline⟩, rfl⟩
  have hinv := LockTable.attempt_inv hfit q.place id q.kind c.discipline
  simp only [attempt]
  generalize hx : t.attempt q.relation q.key id q.kind c.discipline = x at hcall
  rw [show t.attempt q.place.1 q.place.2 id q.kind c.discipline = x from hx] at hinv
  cases hinv with
  | unknown f => exact ⟨h.leave false, .inl rfl, .kept _ _ rfl (fun p => (hnone p).symm) rfl rfl⟩
  | granted t' _ hhold hcached hbeside =>
      refine ⟨⟨h.duties, trivial⟩, .inr hcall, ?_⟩
      exact .took _ t' q rfl (fun p => (hnone p).symm) hhold (fun k n hk => (hbeside k n hk).1)
        hcached
  | denied a ha t' _ hhold hcached =>
      have hvisit : ∀ stage, ({ c with stage } : Committer).Dutiless →
          (∀ p, ({ c with stage } : Committer).owed p = 0) →
          c.Visit t .next ({ c with stage }, t') := fun stage hstage howed =>
        ⟨hstage, .inr hcall, .kept _ t' rfl (fun p => (howed p).trans (hnone p).symm) hhold hcached⟩
      cases a with
      | granted => exact absurd rfl ha
      | refused => exact hvisit _ ⟨h.duties, trivial⟩ fun _ => rfl
      | wait =>
          simp only
          split
          · exact hvisit _ ⟨h.duties, trivial⟩ fun _ => rfl
          · exact hvisit _ ⟨h.duties, trivial⟩ fun _ => rfl

theorem Dutiless.visit_giveBack (h : c.Dutiless) {advance : Bool}
    (hs : c.stage = .releasing advance) : c.Visit t .next (c.giveBack t advance) := by
  simp only [giveBack]
  split
  · rename_i hheld
    refine visit_stage ⟨h.duties, trivial⟩ fun p => ?_
    cases advance <;> simp [owed, committed, hs, hheld]
  · rename_i q rest hheld
    refine ⟨⟨h.duties, by simp [hs]⟩, .inr ?_, .gaveBack _ q advance hs hs hheld⟩
    cases advance with
    | false => exact ⟨⟨q.relation, q.key, .release q.kind⟩, rfl⟩
    | true => exact ⟨⟨q.relation, q.key, .releaseAndAdvance q.kind⟩, rfl⟩

/-- A move of a guard takes a lock, gives one back, or leaves the holds alone. -/
theorem Dutiless.visit (h : c.Dutiless) (hfit : t.Fit []) (id : Nat) (move : CommitMove) :
    c.Visit t move (c.step id t move) := by
  have hself : (∀ p, c.committed p move = 0) → c.Visit t move (c, t) := fun hnone =>
    ⟨h, .inl rfl, .kept c t rfl (fun p => by rw [hnone, Nat.add_zero]) rfl rfl⟩
  have hstage := h.at_stage
  cases hs : c.stage with
  | idle =>
      rw [hs] at hstage
      exact hstage.elim
  | locking rest waits =>
      cases move with
      | next =>
          cases rest with
          | nil =>
              simp only [step, hs]
              refine visit_stage ⟨h.duties, h.duties, rfl⟩ fun p => ?_
              simp [owed, committed, hs]
          | cons q rest =>
              simp only [step, hs]
              exact h.visit_attempt hfit hs
      | answer version => simpa [step, hs, committed] using hself
      | finish advance => simpa [step, hs, committed] using hself
  | withdrawing q =>
      cases move with
      | next =>
          obtain ⟨-, hhold, hcached⟩ := LockTable.withdraw_eq hfit q.place id
          simp only [step, hs]
          refine ⟨h.leave false, .inr ⟨⟨q.relation, q.key, .withdraw id⟩, rfl⟩, ?_⟩
          refine .kept _ _ rfl (fun p => ?_) hhold hcached
          simp [owed, committed, hs, Committer.leave]
      | answer version => simpa [step, hs, committed] using hself
      | finish advance => simpa [step, hs, committed] using hself
  | validating rest found lookup =>
      rw [hs] at hstage
      obtain ⟨rfl, rfl⟩ := hstage
      cases move with
      | next => simpa [step, hs, committed] using hself
      | answer version => simpa [step, hs, committed] using hself
      | finish advance =>
          simp only [step, hs]
          refine visit_stage (h.leave advance) fun p => ?_
          cases advance <;> simp [owed, committed, hs]
  | releasing advance =>
      cases move with
      | next =>
          simp only [step, hs]
          exact h.visit_giveBack hs
      | answer version => simpa [step, hs, committed] using hself
      | finish advance => simpa [step, hs, committed] using hself
  | ended => simpa [step, hs, committed] using hself

end Committer

/-- A lock table with all who use it. -/
structure Traffic where
  table : LockTable
  /-- The guards in the order in which they were asked for, each with its requester. -/
  guards : List (Nat × Committer) := []
  /-- What requesters have been granted by calls of their own and have not given back. -/
  granted : List (Nat × LockRequest) := []

namespace Traffic

inductive Move where
  /-- A requester makes a call of its own. -/
  | call (who : Nat) (c : LockCall)
  /-- A guard is asked for. -/
  | guard (requester : Nat) (d : Discipline) (plan : LockPlan)
  /-- A guard moves. -/
  | step (i : Nat) (move : CommitMove)

/-- A requester makes a call. One that gives back what the requester does not hold is not made. -/
def call (s : Traffic) (who : Nat) (c : LockCall) : Traffic :=
  match c.op.returned? with
  | some kind =>
    if (who, c.request kind) ∈ s.granted then
      { s with
        table := (s.table.serve c).2
        granted := s.granted.erase (who, c.request kind) }
    else s
  | none =>
    { s with
      table := (s.table.serve c).2
      granted := (((s.table.serve c).1.toOption.bind c.op.granted?).map fun g =>
        (g.1, c.request g.2)).toList ++ s.granted }

/-- A move over a table whose numbers may be as large as they like. -/
def moved (s : Traffic) : Move → Traffic
  | .call who c => s.call who c
  | .guard requester d plan => { s with guards := s.guards ++ [(requester, .ofPlan d plan)] }
  | .step i move =>
    match s.guards[i]? with
    | some (requester, c) =>
      { s with
        table := (c.step requester s.table move).2
        guards := s.guards.set i (requester, (c.step requester s.table move).1) }
    | none => s

/-- A move over a table that is kept in words. -/
def take (s : Traffic) (m : Move) : Traffic :=
  { s.moved m with table := (s.moved m).table.stored }

def run (s : Traffic) (moves : List Move) : Traffic := moves.foldl take s

/-- No move of a run makes a number that its word could not keep. -/
def Fitting (s : Traffic) : List Move → Prop
  | [] => True
  | m :: rest => (s.moved m).table.EntriesFit ∧ (s.take m).Fitting rest

instance : (s : Traffic) → (moves : List Move) → Decidable (s.Fitting moves)
  | _, [] => .isTrue trivial
  | s, m :: rest =>
    have := instDecidableFitting (s.take m) rest
    inferInstanceAs (Decidable (_ ∧ _))

/-- Where all numbers fit their words, a move is the one over numbers. -/
theorem take_eq {s : Traffic} {m : Move} (h : (s.moved m).table.EntriesFit) :
    s.take m = s.moved m := by
  rw [take, h.stored]

theorem fitting_append {s : Traffic} {first second : List Move} :
    s.Fitting (first ++ second) ↔ s.Fitting first ∧ (s.run first).Fitting second := by
  induction first generalizing s with
  | nil => exact ⟨fun h => ⟨trivial, h⟩, And.right⟩
  | cons m rest ih => exact (and_congr_right fun _ => ih).trans and_assoc.symm

/-- How many holds of a row there are of the kind of a request. -/
def holds (s : Traffic) (q : LockRequest) : Nat :=
  (s.granted.map Prod.snd).count q + (s.guards.map fun g => g.2.held.count q).sum

/-- How often the version of a row has still to be advanced by guards that are being given back. -/
def owed (s : Traffic) (p : Place) : Nat := (s.guards.map fun g => g.2.owed p).sum

/-- The exclusive requests for a row in a guard that a move begins to give back after a commit. -/
def committedBy (s : Traffic) (p : Place) : Move → Nat
  | .step i move => s.guards[i]?.elim 0 fun g => g.2.committed p move
  | _ => 0

/-- The exclusive requests for a row in all guards that some moves begin to give back after a
commit. -/
def committed (s : Traffic) (p : Place) : List Move → Nat
  | [] => 0
  | m :: rest => s.committedBy p m + (s.take m).committed p rest

/-- A requester sets the version of a row by a call of its own. -/
def Move.sets (p : Place) : Move → Bool
  | .call _ c => c.place == p && c.op.setsVersion
  | _ => false

variable {s : Traffic} {known : List String} {p : Place}

/-- Every lock counts its holders. -/
structure Balanced (s : Traffic) (known : List String) : Prop where
  whole : s.table.Whole known
  dutiless : ∀ g ∈ s.guards, g.2.Dutiless
  balance : ∀ q, s.table.holders q = s.holds q

/-- A sum over a list in which one entry has changed. -/
theorem sum_map_set {α : Type} (f : α → Nat) {l : List α} {i : Nat} {a : α} (h : l[i]? = some a)
    (b : α) : ((l.set i b).map f).sum + f a = (l.map f).sum + f b := by
  induction l generalizing i with
  | nil => cases h
  | cons x rest ih =>
      cases i with
      | zero =>
          obtain rfl : x = a := by simpa using h
          simp only [List.set_cons_zero, List.map_cons, List.sum_cons]
          omega
      | succ i =>
          have hrest := ih (i := i) (by simpa using h)
          simp only [List.set_cons_succ, List.map_cons, List.sum_cons]
          omega

theorem count_cons_request (x q : LockRequest) (rest : LockPlan) :
    (x :: rest).count q = rest.count q + if q = x then 1 else 0 := by
  rw [List.count_cons]
  congr 1
  by_cases hx : x = q
  · rw [if_pos hx.symm, if_pos (beq_iff_eq.2 hx)]
  · rw [if_neg (Ne.symm hx), if_neg (mt beq_iff_eq.1 hx)]

theorem Balanced.call (h : s.Balanced known) (who : Nat) (c : LockCall) :
    (s.call who c).Balanced known := by
  simp only [Traffic.call]
  cases hreturned : c.op.returned? with
  | some kind =>
      dsimp only
      split
      · rename_i hmem
        have hsplit : ∀ q, (s.granted.map Prod.snd).count q =
            ((s.granted.erase (who, c.request kind)).map Prod.snd).count q +
              if q = c.request kind then 1 else 0 := fun q =>
          (((List.perm_cons_erase hmem).map Prod.snd).count_eq q).trans (count_cons_request _ q _)
        have hheld : s.table.holders (c.request kind) ≠ 0 := by
          have hone := hsplit (c.request kind)
          rw [if_pos rfl] at hone
          rw [h.balance, holds]
          omega
        refine ⟨h.whole.serve c, h.dutiless, fun q => ?_⟩
        have hleft := h.whole.holders_return hreturned hheld q
        have hbalance := h.balance q
        have hone := hsplit q
        simp only [holds] at hbalance ⊢
        omega
      · exact h
  | none =>
      refine ⟨h.whole.serve c, h.dutiless, fun q => ?_⟩
      rw [h.whole.holders_serve hreturned, h.balance]
      simp only [holds]
      cases (s.table.serve c).1.toOption.bind c.op.granted? with
      | none => rfl
      | some g =>
          simp only [Option.map_some, Option.toList_some, Option.elim_some, List.singleton_append,
            List.map_cons, count_cons_request]
          omega

theorem Balanced.guard (h : s.Balanced known) (requester : Nat) (d : Discipline)
    (plan : LockPlan) : (s.moved (.guard requester d plan)).Balanced known := by
  refine ⟨h.whole, ?_, fun q => ?_⟩
  · intro g hg
    rcases List.mem_append.1 hg with hg | hg
    · exact h.dutiless g hg
    · obtain rfl := List.mem_singleton.1 hg
      refine ⟨?_, trivial⟩
      cases d <;> rfl
  · have hbalance := h.balance q
    simpa [holds, Traffic.moved, Committer.ofPlan] using hbalance

section Step
variable {i requester : Nat} {c c' : Committer} {t : LockTable}
  (hg : s.guards[i]? = some (requester, c))
include hg

theorem holds_set (t : LockTable) (c' : Committer) (q : LockRequest) :
    ({ s with table := t, guards := s.guards.set i (requester, c') } : Traffic).holds q +
      c.held.count q = s.holds q + c'.held.count q := by
  have hsum := sum_map_set (fun g : Nat × Committer => g.2.held.count q) hg (requester, c')
  simp only [holds] at hsum ⊢
  omega

theorem owed_set (t : LockTable) (c' : Committer) (p : Place) :
    ({ s with table := t, guards := s.guards.set i (requester, c') } : Traffic).owed p +
      c.owed p = s.owed p + c'.owed p :=
  sum_map_set (fun g : Nat × Committer => g.2.owed p) hg (requester, c')

/-- What a guard gives back is held. -/
theorem Balanced.holders_ne_zero (h : s.Balanced known) {q : LockRequest}
    (hheld : c.held = q :: c'.held) : s.table.holders q ≠ 0 := by
  have hset := holds_set hg s.table c' q
  rw [hheld, count_cons_request, if_pos rfl] at hset
  rw [h.balance]
  omega

theorem Balanced.visit (h : s.Balanced known) (move : CommitMove) :
    c.Visit s.table move (c.step requester s.table move) :=
  (h.dutiless _ (List.mem_of_getElem? hg)).visit ⟨h.whole.fit.sorted, nofun⟩ requester move

theorem Balanced.step (h : s.Balanced known) {move : CommitMove}
    (hvisit : c.Visit s.table move (c', t)) :
    Balanced { s with table := t, guards := s.guards.set i (requester, c') } known := by
  refine ⟨?_, ?_, fun q => ?_⟩
  · rcases hvisit.table with rfl | ⟨call, rfl⟩
    · exact h.whole
    · exact h.whole.serve call
  · intro g hg'
    rcases List.mem_or_eq_of_mem_set hg' with hold | rfl
    · exact h.dutiless g hold
    · exact hvisit.dutiless
  · have hbalance := h.balance q
    have hset := holds_set hg t c' q
    change t.holders q = _
    cases hvisit.grip with
    | kept _ _ hheld _ hhold _ =>
        rw [LockTable.holders_congr hhold]
        rw [hheld] at hset
        omega
    | took _ _ q' hheld _ hhold hkind _ =>
        rw [LockTable.holders_of_joined hhold hkind]
        rw [hheld, List.count_append, count_cons_request, List.count_nil] at hset
        omega
    | gaveBack _ q' advance _ _ hheld =>
        have hleft := (LockTable.release_of_holders h.whole.fit (h.holders_ne_zero hg hheld)
          advance).1 q
        rw [hheld, count_cons_request] at hset
        omega

end Step

theorem Balanced.moved (h : s.Balanced known) (m : Move) : (s.moved m).Balanced known := by
  cases m with
  | call who c => exact h.call who c
  | guard requester d plan => exact h.guard requester d plan
  | step i move =>
      simp only [Traffic.moved]
      cases hg : s.guards[i]? with
      | none => exact h
      | some g => exact h.step hg (h.visit hg move)

theorem Balanced.take (h : s.Balanced known) {m : Move} (hfits : (s.moved m).table.EntriesFit) :
    (s.take m).Balanced known := by
  rw [take_eq hfits]
  exact h.moved m

theorem Balanced.run (h : s.Balanced known) {moves : List Move} (hfits : s.Fitting moves) :
    (s.run moves).Balanced known := by
  induction moves generalizing s with
  | nil => exact h
  | cons m rest ih => exact ih (h.take hfits.1) hfits.2

/-- A table that nobody has used yet. -/
theorem balanced_create {config : LockTableConfig} {t : LockTable}
    (h : LockTable.create known config = .ok t) : Balanced { table := t } known where
  whole := LockTable.whole_create h
  dutiless := nofun
  balance q := by
    rw [LockTable.holders, (LockTable.create_eq_ok h).2.1 q.place]
    rfl

/-- A version that is known stays known and is never set back. -/
theorem Balanced.cached?_le_moved (h : s.Balanced known) (m : Move) {v : Nat}
    (hv : s.table.cached? p = some v) :
    ∃ v', (s.moved m).table.cached? p = some v' ∧ v ≤ v' := by
  cases m with
  | call who c =>
      simp only [Traffic.moved, Traffic.call]
      split
      · split
        · exact h.whole.cached?_le_serve c hv
        · exact ⟨v, hv, le_rfl⟩
      · exact h.whole.cached?_le_serve c hv
  | guard requester d plan => exact ⟨v, hv, le_rfl⟩
  | step i move =>
      simp only [Traffic.moved]
      cases hg : s.guards[i]? with
      | none => exact ⟨v, hv, le_rfl⟩
      | some g =>
          rcases (h.visit hg move).table with hsame | ⟨call, hcall⟩
          · exact ⟨v, (congrArg (·.cached? p) hsame).trans hv, le_rfl⟩
          · obtain ⟨v', hv', hle⟩ := h.whole.cached?_le_serve call hv
            exact ⟨v', (congrArg (·.cached? p) hcall).trans hv', hle⟩

theorem Balanced.cached?_le_run (h : s.Balanced known) {moves : List Move}
    (hfits : s.Fitting moves) {v : Nat} (hv : s.table.cached? p = some v) :
    ∃ v', (s.run moves).table.cached? p = some v' ∧ v ≤ v' := by
  induction moves generalizing s v with
  | nil => exact ⟨v, hv, le_rfl⟩
  | cons m rest ih =>
      obtain ⟨w, hw, hle⟩ := h.cached?_le_moved m hv
      rw [← take_eq hfits.1] at hw
      obtain ⟨v', hv', hle'⟩ := ih (h.take hfits.1) hfits.2 hw
      exact ⟨v', hv', hle.trans hle'⟩

/-- Versions that differ by what is owed differ alike with more of it on both sides. -/
theorem account_shift {v v' : Option Nat} {a a' b b' : Nat}
    (h : v'.map (· + a') = v.map (· + a)) (hb : b' + a = b + a') :
    v'.map (· + b') = v.map (· + b) := by
  cases v <;> cases v' <;> simp_all
  omega

/-- A move of a guard advances the version of a row as often as the guard then owes it less. -/
theorem Balanced.account_visit (h : s.Balanced known) {i requester : Nat} {c : Committer}
    (hg : s.guards[i]? = some (requester, c)) {move : CommitMove} {x : Committer × LockTable}
    (hvisit : c.Visit s.table move x) (p : Place) :
    (x.2.cached? p).map (· + x.1.owed p) =
      (s.table.cached? p).map (· + (c.owed p + c.committed p move)) := by
  cases hvisit.grip with
  | kept _ _ _ howed _ hcached => rw [hcached, howed]
  | took _ _ _ _ howed _ _ hcached => rw [hcached, howed]
  | gaveBack c' q advance hstage hstage' hheld =>
      have hcached := (LockTable.release_of_holders h.whole.fit (h.holders_ne_zero hg hheld)
        advance).2
      have hcommitted : c.committed p move = 0 := by simp [Committer.committed, hstage]
      rw [hcached, hcommitted, Committer.owed, Committer.owed, hstage, hstage']
      cases advance with
      | false => rfl
      | true =>
          simp only [hheld, count_cons_request, LockTable.released, Bool.true_and]
          by_cases hq : (⟨p.1, p.2, .exclusive⟩ : LockRequest) = q
          · subst hq
            have hone : ∀ v n : Nat, v + 1 + n = v + (n + 1) := by omega
            simp [LockRequest.place, Function.comp_def, hone]
          · rw [if_neg hq]
            split
            · rename_i hkind
              have hp : p ≠ q.place := fun hp =>
                hq (LockRequest.eq_iff.2 ⟨hp, (beq_iff_eq.1 hkind).symm⟩)
              rw [Function.update_of_ne hp]
              rfl
            · rfl

/-- A move by which no requester sets the version of a row pays what guards owe. -/
theorem Balanced.account_moved (h : s.Balanced known) {m : Move} (hm : m.sets p = false) :
    ((s.moved m).table.cached? p).map (· + (s.moved m).owed p) =
      (s.table.cached? p).map (· + (s.owed p + s.committedBy p m)) := by
  cases m with
  | call who c =>
      have hserve := h.whole.cached?_serve hm
      simp only [Traffic.moved, Traffic.call]
      split
      · split
        · rw [hserve]
          rfl
        · rfl
      · rw [hserve]
        rfl
  | guard requester d plan =>
      have hnone : (Committer.ofPlan d plan).owed p = 0 := rfl
      simp [Traffic.moved, owed, committedBy, hnone]
  | step i move =>
      simp only [Traffic.moved, committedBy]
      cases hg : s.guards[i]? with
      | none => rfl
      | some g =>
          obtain ⟨requester, c⟩ := g
          have haccount := h.account_visit hg (h.visit hg move) p
          have hset := owed_set hg (c.step requester s.table move).2
            (c.step requester s.table move).1 p
          apply account_shift haccount
          simp only [Option.elim_some]
          omega

/-- Moves by which no requester sets the version of a row advance it by what guards promise. -/
theorem Balanced.account_run (h : s.Balanced known) {moves : List Move}
    (hfits : s.Fitting moves) (hmoves : ∀ m ∈ moves, m.sets p = false) :
    ((s.run moves).table.cached? p).map (· + (s.run moves).owed p) =
      (s.table.cached? p).map (· + (s.owed p + s.committed p moves)) := by
  induction moves generalizing s with
  | nil => rfl
  | cons m rest ih =>
      have hfirst := h.account_moved (hmoves m List.mem_cons_self)
      rw [← take_eq hfits.1] at hfirst
      have hrest := ih (h.take hfits.1) hfits.2 fun m' hm' =>
        hmoves m' (List.mem_cons_of_mem m hm')
      refine hrest.trans (account_shift hfirst ?_)
      simp only [committed]
      omega

/-- A table for one relation, with a single bucket in which unused locks are dropped at once. -/
def crowdedTable : LockTable := { config := LockTable.crowded, relations := [("x", {})] }

/-- Somebody tells the version of a row. -/
def toldFive : List Move := [.call 9 ⟨"x", 1, .observeVersion 5⟩]

/-- Two writers hold a row together and commit, and a third one is not let in. -/
def writeTogether : List Move :=
  [.guard 1 .readCommitted [⟨"x", 1, .exclusive⟩],
    .guard 2 .readCommitted [⟨"x", 1, .exclusive⟩, ⟨"x", 2, .shared⟩],
    .guard 3 .snapshot [⟨"x", 1, .exclusive⟩],
    .step 0 .next, .step 1 .next, .step 2 .next, .step 0 .next, .step 0 (.finish true),
    .step 1 .next, .step 1 .next, .step 0 .next, .step 1 (.finish true), .step 2 .next,
    .step 1 .next, .step 1 .next]

/-- The last version of a word is followed by the first one. -/
example :
    let told : List Move := [.call 9 ⟨"x", 1, .updateVersion (UInt64.size - 1)⟩]
    ((run { table := crowdedTable } told).run writeTogether).table.cached? ("x", 1) = some 1 := by
  decide +kernel

end Traffic

end LiveIsolation
