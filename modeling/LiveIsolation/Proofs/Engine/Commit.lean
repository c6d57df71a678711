import LiveIsolation.Proofs.Engine.Run

/-!
# Parts of commits and rollbacks

A transaction may commit if its protocol asks for no validation or a guard holds its locks
(`Engine.Admitted`). After the store has been asked, the guard gives the locks back (`givenBack`) or
the versions of the written rows are taken over too (`settled`).
-/

namespace LiveIsolation

namespace Engine

variable {w : Worker}

/-- The transaction may commit: the protocol asks for no validation, or it has been validated
and a guard holds its locks. -/
inductive Admitted (e : Engine) (w : Worker) (t : OpenTransaction) :
    Option Guard → Engine → Prop where
  | unchecked (h : e.barrier.required.discipline? = none) : Admitted e w t none e
  | validated (d : Discipline) (guard : Guard) (e₁ : Engine)
    (h : e.barrier.required.discipline? = some d)
    (hlocks : e.lockAndValidate w t d = (.ok guard, e₁)) : Admitted e w t (some guard) e₁

/-- The locks after a guard, if there is one, has given its locks back. -/
def givenBack (locks : LockTable) (guard : Option Guard) : LockTable :=
  guard.elim locks fun g => (g.releaseAborted locks).2

/-- The locks after a successful commit, and whether that could be done without a fault. -/
def settled (locks : LockTable) (guard : Option Guard) (written : List (Place × Nat)) :
    Except Fault Unit × LockTable :=
  let (released, locks) := guard.elim (.ok (), locks) fun g => g.releaseCommitted locks
  let (refreshed, locks) := refresh locks written
  (Fault.first released refreshed, locks)

/-- A link without a gate lets every commit through. -/
theorem comeToGate_eq (e : Engine) (t : OpenTransaction) (guard : Option Guard)
    (hgate : w.link.permits = none) : e.comeToGate w t guard = e.commitStore w t guard := by
  have hpass : w.link.passGate? = some w.link := by simp [Link.passGate?, hgate]
  simp only [comeToGate, hpass]

/-- A rollback ends the open transaction, if there is one, and its worker comes to the
boundary. -/
theorem startRollback_inv (e : Engine) (w : Worker) :
    (w.current = none ∧ e.startRollback w = e.passBoundary w .rollback (.ok ())) ∨
      (∃ t, w.current = some t ∧
        e.startRollback w =
          { e with counters := e.counters.finish false }.passBoundary
            { w with link := w.link.rollback.2, current := none } .rollback w.link.rollback.1) := by
  cases hcurrent : w.current with
  | none => exact .inl ⟨rfl, by simp only [startRollback, hcurrent]⟩
  | some t => exact .inr ⟨t, rfl, by simp only [startRollback, hcurrent, finish]⟩

/-- Locking and validation change the lock table and the counters only. -/
theorem lockAndValidate_eq (e : Engine) (w : Worker) (t : OpenTransaction) (d : Discipline) :
    ∃ locks counters, (e.lockAndValidate w t d).2 = { e with locks, counters } := by
  have hreject : ∀ (locks : LockTable) (cs : List Conflict),
      ∃ counters, ({ e with locks }.reject cs).2 = { e with locks, counters } := by
    intro locks cs
    unfold reject
    dsimp only
    split
    · exact ⟨_, rfl⟩
    · exact ⟨_, rfl⟩
  unfold lockAndValidate
  split
  · exact ⟨_, e.counters, rfl⟩
  · rename_i conflict conflicts locks _
    obtain ⟨counters, h⟩ := hreject locks (conflict :: conflicts)
    exact ⟨locks, counters, h⟩
  · dsimp only
    split
    · exact ⟨_, e.counters, rfl⟩
    · exact ⟨_, e.counters, rfl⟩
    · split
      · exact ⟨_, e.counters, rfl⟩
      · rename_i conflicts _ _ _ locks _
        obtain ⟨counters, h⟩ := hreject locks conflicts
        exact ⟨locks, counters, h⟩

/-- A transaction that is given up leaves its worker idle and is counted. -/
theorem abandon_eq (e : Engine) (w : Worker) :
    e.abandon w = ({ e with counters := e.counters.finish false },
      { w with link := w.link.rollback.2, current := none }) := rfl

end Engine

end LiveIsolation
