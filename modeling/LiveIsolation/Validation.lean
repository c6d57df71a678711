import LiveIsolation.LockTable.Basic
import LiveIsolation.Obligation

/-!
# Validation of versions

A commit compares the version that each of its obligations saw with the row's last committed
version: the one that the lock table knows, or else the one that the store reports. A row that
was not there when it was observed, or that neither knows, is not compared.
-/

namespace LiveIsolation

namespace Conflict

/-- The number of conflicts over locks. -/
def lockCount (cs : List Conflict) : Nat := cs.countP isLock

/-- The number of rows that were found changed. -/
def staleCount (cs : List Conflict) : Nat := cs.countP fun c => !c.isLock

/-- Conflicts are one fault that lists them all. -/
def settle : List Conflict → Except Fault Unit
  | [] => .ok ()
  | cs => .error (.conflicts cs)

theorem lockCount_add_staleCount (cs : List Conflict) :
    lockCount cs + staleCount cs = cs.length := by
  simp [lockCount, staleCount, List.length_eq_countP_add_countP isLock]

theorem settle_eq_ok_iff {cs : List Conflict} : settle cs = .ok () ↔ cs = [] := by
  cases cs <;> simp [settle]

end Conflict

/-- What a store reports as the version of a row. -/
abbrev VersionSource := String → RowKey → Except Fault (Option Nat)

/-- A validation: its conflicts, the rows that the store was asked for, and the table with
what was learned. -/
structure VersionCheck where
  conflicts : Except Fault (List Conflict)
  fetched : List Place
  table : LockTable

namespace LockTable

/-- The conflict of an observed version with the current one, if the latter is known. -/
def staleness (o : Obligation) (observed : Nat) : Option Nat → List Conflict
  | some current =>
    if current = observed then [] else [.stale o.relation o.key observed current]
  | none => []

/-- Validates obligations in order; a fault ends the validation. -/
def validate (t : LockTable) (fetch : VersionSource) : List Obligation → VersionCheck
  | [] => ⟨.ok [], [], t⟩
  | o :: rest =>
    match o.observed with
    | none => t.validate fetch rest
    | some observed =>
      let (reply, t) := t.currentVersion o.relation o.key (fetch o.relation o.key)
      let fetched := if reply.asked then [o.place] else []
      match reply.version with
      | .error e => ⟨.error e, fetched, t⟩
      | .ok current =>
        let later := t.validate fetch rest
        ⟨later.conflicts.map (staleness o observed current ++ ·), fetched ++ later.fetched,
          later.table⟩

end LockTable

end LiveIsolation
