import LiveIsolation.Proofs.LockTable.Views

/-!
# The words of a lock table

The numbers of all locks of a table are kept in words (`LockTable.stored`). Nothing is lost where
they fit (`LockTable.EntriesFit.stored`).
-/

namespace LiveIsolation

def RelationLocks.stored (r : RelationLocks) : RelationLocks :=
  { r with entries := r.entries.map fun e => (e.1, e.2.stored) }

namespace LockTable

variable {t : LockTable}

/-- The table as its words have it. -/
def stored (t : LockTable) : LockTable :=
  { t with relations := t.relations.map fun x => (x.1, x.2.stored) }

/-- Whatever row is asked for, the numbers of its lock fit their words. -/
def Fits (t : LockTable) : Prop := ∀ p, (t.lockAt p).Fits

/-- The numbers of all locks that have come into being fit their words. -/
def EntriesFit (t : LockTable) : Prop := ∀ x ∈ t.relations, ∀ y ∈ x.2.entries, y.2.Fits

instance (t : LockTable) : Decidable t.EntriesFit :=
  inferInstanceAs (Decidable (∀ x ∈ t.relations, ∀ y ∈ x.2.entries, y.2.Fits))

/-- What holds of an unused lock and of all locks that have come into being holds of every row. -/
theorem forall_lockAt {P : Lock → Prop} (hunused : P {})
    (h : ∀ x ∈ t.relations, ∀ y ∈ x.2.entries, P y.2) (p : Place) : P (t.lockAt p) := by
  cases hr : t.find? p.1 with
  | none =>
      rw [lockAt, hr]
      exact hunused
  | some r =>
      rw [lockAt_of_find? hr]
      cases hl : r.find? p.2 with
      | none =>
          rw [RelationLocks.lockAt_of_none hl]
          exact hunused
      | some l =>
          rw [RelationLocks.lockAt_of_some hl]
          exact h _ (Ordered.mem_of_lookup hr) _ (Ordered.mem_of_lookup hl)

theorem EntriesFit.fits (h : t.EntriesFit) : t.Fits := forall_lockAt ⟨by decide, nofun⟩ h

/-- Numbers that fit lose nothing. -/
theorem EntriesFit.stored (h : t.EntriesFit) : t.stored = t := by
  have hentries : ∀ x ∈ t.relations, x.2.entries.map (fun y => (y.1, y.2.stored)) = x.2.entries :=
    fun x hx => (List.map_congr_left fun y hy => by rw [(h x hx y hy).stored]; rfl).trans
      (List.map_id _)
  have hrelations : t.relations.map (fun x => (x.1, x.2.stored)) = t.relations :=
    (List.map_congr_left fun x hx => by
      rw [RelationLocks.stored, hentries x hx]; rfl).trans (List.map_id _)
  rw [LockTable.stored, hrelations]

end LockTable

end LiveIsolation
