import LiveIsolation.Proofs.Engine.Gate
import LiveIsolation.Proofs.Engine.Steady

/-!
# Turns

What happens to an engine may bring calls to their end (`Engine.occur`). A turn is one thing that
happens, or a commit during which the store comes and goes: it may become unavailable and available
again between any two questions of the commit, the one for a level at the boundary included.
-/

namespace LiveIsolation

inductive Turn where
  | plain (happening : Happening)
  /-- A commit of a worker whose link has no gate. The store is available or not at the moments of
  `Engine.commitDuring`, and at the boundary. -/
  | commit (worker : Nat) (down : Nat → Bool) (downAtBoundary : Bool)

namespace Turn

/-- A turn in which all calls that it starts come to the boundary. -/
def Apart : Turn → Prop
  | .plain (.action _) => True
  | .plain _ => False
  | .commit _ _ _ => True

instance : DecidablePred Turn.Apart
  | .plain (.action _) => .isTrue trivial
  | .plain (.connectGated _ _) => .isFalse id
  | .plain (.openGate _) => .isFalse id
  | .plain (.lockCall _) => .isFalse id
  | .commit _ _ _ => .isTrue trivial

end Turn

namespace Engine

variable {e : Engine} {w : Worker}

/-- What comes of something that happens, with the calls that end. -/
def occur (e : Engine) : Happening → List EngineEvent × Engine
  | .action a => e.take a
  | .connectGated id permits => ([], (e.connect id [] (some permits)).2)
  | .openGate id => e.openGate id
  | .lockCall c => ([], { e with locks := (e.locks.serve c).2 })

theorem occur_snd (e : Engine) (happening : Happening) :
    (e.occur happening).2 = e.happen happening := by
  cases happening <;> rfl

/-- A worker comes to its boundary while the store is available or not. -/
def passBoundaryWhen (e : Engine) (w : Worker) (call : EndCall) (result : Except Fault Unit)
    (unavailable : Bool) : List EngineEvent × Engine :=
  let (events, e') := { e with store := e.storeWhen unavailable }.passBoundary w call result
  (events, { e' with store := e'.storeWhen e.store.unavailable })

/-- A worker that can commit starts to. -/
def startCommitDuring (e : Engine) (w : Worker) (down : Nat → Bool) (downAtBoundary : Bool) :
    List EngineEvent × Engine :=
  match w.current with
  | none => e.passBoundaryWhen w .commit (.ok ()) downAtBoundary
  | some t =>
    let (result, e, w) := e.commitDuring w t down
    e.passBoundaryWhen w .commit result downAtBoundary

/-- Takes a turn. A worker that is busy or has a gate cannot take one of its own. -/
def turn (e : Engine) : Turn → List EngineEvent × Engine
  | .plain happening => e.occur happening
  | .commit id down downAtBoundary =>
    match e.worker? id with
    | none => ([], e)
    | some w =>
      if w.blocked.isSome || w.link.permits.isSome then ([], e)
      else e.startCommitDuring w down downAtBoundary

/-- The engine after some turns. -/
def through (e : Engine) (turns : List Turn) : Engine :=
  turns.foldl (fun e turn => (e.turn turn).2) e

theorem through_append (e : Engine) (first second : List Turn) :
    e.through (first ++ second) = (e.through first).through second :=
  List.foldl_append

theorem through_concat (e : Engine) (turns : List Turn) (turn : Turn) :
    e.through (turns ++ [turn]) = ((e.through turns).turn turn).2 :=
  e.through_append turns [turn]

/-- What every turn of a run preserves holds after it. -/
theorem through_induction {P : Engine → Prop} {turns : List Turn}
    (hturns : ∀ turn ∈ turns, ∀ e, P e → P (e.turn turn).2) (h : P e) : P (e.through turns) := by
  induction turns generalizing e with
  | nil => exact h
  | cons turn rest ih =>
      obtain ⟨hfirst, hrest⟩ := List.forall_mem_cons.1 hturns
      exact ih hrest (hfirst e h)

/-- The calls that end in some turns, in order. -/
def ends (e : Engine) : List Turn → List EngineEvent
  | [] => []
  | turn :: rest => (e.turn turn).1 ++ (e.turn turn).2.ends rest

/-- At the boundary the store's state does not matter beyond the level. -/
theorem passBoundaryWhen_crossed (e : Engine) (w : Worker) (call : EndCall)
    (result : Except Fault Unit) (unavailable : Bool) :
    e.Crossed w (e.passBoundaryWhen w call result unavailable).2 := by
  obtain ⟨barrier, levels, protocol, blocked, hcrossed, hkeeps⟩ :=
    passBoundary_crossed { e with store := e.storeWhen unavailable } w call result
  refine ⟨barrier, levels, protocol, blocked, ?_, hkeeps⟩
  simp only [passBoundaryWhen, hcrossed]
  rfl

/-- Where the store does not change, this is the boundary that the engine passes. -/
theorem passBoundaryWhen_self (e : Engine) (w : Worker) (call : EndCall)
    (result : Except Fault Unit) :
    e.passBoundaryWhen w call result e.store.unavailable = e.passBoundary w call result := by
  obtain ⟨barrier, levels, protocol, blocked, hcrossed, -⟩ :=
    passBoundary_crossed e w call result
  have hstore : (e.passBoundary w call result).2.storeWhen e.store.unavailable =
      (e.passBoundary w call result).2.store := by
    rw [hcrossed]
    rfl
  simp only [passBoundaryWhen, storeWhen_self, hstore]

/-- A commit comes to its boundary at once if there is nothing to commit, and otherwise after the
store has been asked. -/
theorem startCommitDuring_cases (e : Engine) (w : Worker) (down : Nat → Bool)
    (downAtBoundary : Bool) :
    (w.current = none ∧ e.startCommitDuring w down downAtBoundary =
        e.passBoundaryWhen w .commit (.ok ()) downAtBoundary) ∨
      ∃ t result e₁ w₁, w.current = some t ∧ e.commitDuring w t down = (result, e₁, w₁) ∧
        e.startCommitDuring w down downAtBoundary =
          e₁.passBoundaryWhen w₁ .commit result downAtBoundary := by
  cases ht : w.current with
  | none => exact .inl ⟨rfl, by simp only [startCommitDuring, ht]⟩
  | some t =>
      cases hcommit : e.commitDuring w t down with
      | mk result ended =>
          refine .inr ⟨t, result, ended.1, ended.2, rfl, hcommit, ?_⟩
          simp only [startCommitDuring, ht, hcommit]

/-- Where the store does not change during a commit, it goes as the engine does it. -/
theorem startCommitDuring_const (hgate : w.link.permits = none) :
    e.startCommitDuring w (fun _ => e.store.unavailable) e.store.unavailable = e.startCommit w := by
  cases ht : w.current with
  | none => simp only [startCommitDuring, startCommit, ht, passBoundaryWhen_self]
  | some t =>
      obtain ⟨result, e₁, w₁, hcommit, hstarted⟩ := startCommit_eq (e := e) ht hgate
      obtain ⟨-, -, hstore, -, -⟩ := (commitDuring_ends e w t _ hcommit).leaves
      rw [hstarted]
      simp only [startCommitDuring, ht, hcommit]
      rw [← hstore, passBoundaryWhen_self]

section Commits

variable {id : Nat}

/-- A worker that is not held up is asked to commit. -/
theorem turn_finish (hw : e.worker? id = some w) (hfree : w.blocked = none) :
    e.turn (.plain (.action (.finish id .commit))) = e.startCommit w := by
  have hidle : e.busy id = false := by simp [busy, hw, hfree]
  simp only [turn, occur, take, hidle, Bool.false_eq_true, if_false, start_commit hw]

/-- A worker that is not held up, and has no gate, commits while the store comes and goes. -/
theorem turn_commit (hw : e.worker? id = some w) (hfree : w.blocked = none)
    (hgate : w.link.permits = none) (down : Nat → Bool) (downAtBoundary : Bool) :
    e.turn (.commit id down downAtBoundary) = e.startCommitDuring w down downAtBoundary := by
  simp only [turn, hw, hfree, hgate, Option.isSome_none, Bool.or_self, Bool.false_eq_true, if_false]

/-- A worker that is not there, is held up or has a gate does nothing, and any other one commits
while the store comes and goes. -/
theorem turn_commit_cases (e : Engine) (id : Nat) (down : Nat → Bool) (downAtBoundary : Bool) :
    ((∀ w, e.worker? id = some w → w.blocked ≠ none ∨ w.link.permits ≠ none) ∧
        e.turn (.commit id down downAtBoundary) = ([], e)) ∨
      ∃ w, e.worker? id = some w ∧ w.blocked = none ∧ w.link.permits = none ∧
        e.turn (.commit id down downAtBoundary) = e.startCommitDuring w down downAtBoundary := by
  cases hw : e.worker? id with
  | none => exact .inl ⟨nofun, by simp only [turn, hw]⟩
  | some w =>
      by_cases hfree : w.blocked = none ∧ w.link.permits = none
      · exact .inr ⟨w, rfl, hfree.1, hfree.2, turn_commit hw hfree.1 hfree.2 down downAtBoundary⟩
      · rw [not_and_or] at hfree
        refine .inl ⟨fun _ hx => Option.some.inj hx ▸ hfree, ?_⟩
        have hheld : (w.blocked.isSome || w.link.permits.isSome) = true := by
          rw [Bool.or_eq_true, Option.isSome_iff_ne_none, Option.isSome_iff_ne_none]
          exact hfree
        simp only [turn, hw, hheld, if_true]

end Commits

section Steady

/-- Whatever the store does during a commit, the lock table serves some calls. -/
theorem reaches_commitDuring (e : Engine) (w : Worker) (t : OpenTransaction)
    (down : Nat → Bool) : e.locks.Reaches (e.commitDuring w t down).2.1.locks := by
  have hconclude : ∀ (e₁ : Engine) (guard : Option Guard) (unavailable : Bool),
      e₁.locks.Reaches (e₁.concludeDuring w t guard unavailable).2.1.locks := by
    intro e₁ guard unavailable
    simp only [concludeDuring]
    split
    · exact reaches_givenBack e₁.locks guard
    · exact reaches_settled e₁.locks guard t.written
  cases hd : e.barrier.required.discipline? with
  | none =>
      simp only [commitDuring, hd]
      exact hconclude e none (down 0)
  | some d =>
      have hreaches := e.reaches_lockAndValidateDuring w t d down
      simp only [commitDuring, hd]
      generalize e.lockAndValidateDuring w t d down = x at hreaches
      obtain ⟨answer, e₁⟩ := x
      cases answer with
      | ok guard => exact hreaches.trans (hconclude e₁ (some guard) _)
      | error f => exact hreaches

theorem Steady.startCommitDuring (h : e.Steady) (hw : w.Tidy e.workload.relations)
    (down : Nat → Bool) (downAtBoundary : Bool) :
    (e.startCommitDuring w down downAtBoundary).2.Steady := by
  rcases e.startCommitDuring_cases w down downAtBoundary with
    ⟨-, hstarted⟩ | ⟨t, result, e₁, w₁, -, hcommit, hstarted⟩
  · rw [hstarted]
    exact h.cross hw (passBoundaryWhen_crossed e w .commit (.ok ()) downAtBoundary)
  · rw [hstarted]
    have hreaches := e.reaches_commitDuring w t down
    rw [hcommit] at hreaches
    have hended : ∀ link, w.link.Emptied link →
        Worker.Tidy { w with link, current := none } e.workload.relations := by
      intro link hlink
      refine ⟨hlink.failing ▸ hw.rollback, ?_, nofun⟩
      rw [hlink.writes hw.rollback]
      exact List.Pairwise.nil
    cases commitDuring_ends e w t down hcommit with
    | withdrawn f locks counters link hlink _ _ =>
        have hsteady : Steady { e with locks, counters } := h.congr rfl hreaches rfl
        exact hsteady.cross (hended link hlink) (passBoundaryWhen_crossed ..)
    | applied result locks counters link hlink _ _ _ =>
        have hsteady : Steady { e with
            locks, counters
            store := { e.store.writeAll w.link.connection.writes with
              commits := e.store.commits + 1 } } := h.congr rfl hreaches rfl
        exact hsteady.cross (hended link hlink) (passBoundaryWhen_crossed ..)

/-- Every turn keeps an engine steady. -/
theorem Steady.turn (h : e.Steady) (turn : Turn) : (e.turn turn).2.Steady := by
  cases turn with
  | plain happening =>
      rw [show (e.turn (.plain happening)).2 = e.happen happening from e.occur_snd happening]
      exact h.happen happening
  | commit id down downAtBoundary =>
      rcases e.turn_commit_cases id down downAtBoundary with
        ⟨-, hturn⟩ | ⟨w, hw, -, -, hturn⟩
      · rw [hturn]
        exact h
      · rw [hturn]
        exact h.startCommitDuring (h.tidy id w hw) down downAtBoundary

theorem Steady.through (h : e.Steady) (turns : List Turn) : (e.through turns).Steady :=
  through_induction (fun turn _ _ h => h.turn turn) h

end Steady

end Engine

end LiveIsolation
