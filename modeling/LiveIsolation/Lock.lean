import LiveIsolation.Fault

/-!
# Validation locks

A validation lock guards one row while a commit is validated, and caches the row's last
committed version. It is held by readers or by a writer; under read committed several
writers may hold it together. Requesters are ordered by their numbers: a smaller number is
an older transaction.

A lock decides (`Lock.answer`) before it changes (`Lock.attempt`). A reader is refused
behind an older pending writer and behind any writer; a writer is refused by a younger
reader and waits for older ones.

The holders are counted in a word of 32 bits, and requesters and versions are words of 64 bits.
All of them are natural numbers here, which count on where a word is full: what is said of the
numbers holds of the words as long as the numbers fit (`Lock.Fits`, and `Lock.stored` for the words
themselves).
-/

namespace LiveIsolation

/-- The answer to one attempt to take a lock. -/
inductive Attempt where
  | granted
  | wait
  | refused
  deriving DecidableEq, Repr, Inhabited

structure Lock where
  holder : Option LockKind := none
  /-- The number of the holders. -/
  count : Nat := 0
  /-- The youngest requester that was granted the lock since it was last free. -/
  maxHolder : Nat := 0
  /-- The oldest pending writer. -/
  minWriteWait : Option Nat := none
  /-- The youngest pending writer. -/
  maxWriteWait : Option Nat := none
  /-- The oldest reader that was refused by a writer under read committed. -/
  minReadWait : Option Nat := none
  /-- The last committed version of the row, if known. -/
  version : Option Nat := none
  /-- An attempt was once not granted. -/
  contended : Bool := false
  deriving DecidableEq, Repr, Inhabited

namespace Lock

/-- A mark lowered to `n`. -/
def lowered (mark : Option Nat) (n : Nat) : Option Nat :=
  some (mark.elim n (min n))

/-- A mark raised to `n`. -/
def raised (mark : Option Nat) (n : Nat) : Option Nat :=
  some (mark.elim n (max n))

/-- The answer to a request, by the kind of the holders. -/
def answer (l : Lock) (requester : Nat) (kind : LockKind) (d : Discipline) : Attempt :=
  match l.holder, kind, d with
  | none, _, _ => .granted
  | some .shared, .shared, _ =>
    if l.minWriteWait.any (fun w => decide (w < requester)) then .refused else .granted
  | some .shared, .exclusive, _ => if requester < l.maxHolder then .refused else .wait
  | some .exclusive, .shared, _ => .refused
  | some .exclusive, .exclusive, .snapshot => .refused
  | some .exclusive, .exclusive, .readCommitted => .granted

/-- Takes a requester out of the marks for pending writers. Other pending writers put
themselves in again with their next attempt. -/
def withdraw (l : Lock) (requester : Nat) : Lock :=
  let least := if l.minWriteWait = some requester then none else l.minWriteWait
  let greatest := if l.maxWriteWait = some requester then least else l.maxWriteWait
  { l with minWriteWait := least, maxWriteWait := if least.isNone then none else greatest }

/-- The lock with one more holder. A writer that comes first is no longer pending. -/
def grant (l : Lock) (requester : Nat) (kind : LockKind) : Lock :=
  match l.holder, kind with
  | none, .shared => { l with holder := some .shared, count := 1, maxHolder := requester }
  | none, .exclusive =>
    { l with holder := some .exclusive, count := 1, maxHolder := requester }.withdraw requester
  | some _, _ => { l with count := l.count + 1, maxHolder := max l.maxHolder requester }

/-- Marks a writer as pending. Under read committed the first oldest writer stays. -/
def await (l : Lock) (requester : Nat) (d : Discipline) : Lock :=
  { l with
    minWriteWait :=
      match d with
      | .snapshot => lowered l.minWriteWait requester
      | .readCommitted => some (l.minWriteWait.getD requester)
    maxWriteWait := raised l.maxWriteWait requester }

/-- Marks a reader that a writer refuses under read committed. -/
def turnAway (l : Lock) (requester : Nat) (kind : LockKind) (d : Discipline) : Lock :=
  match l.holder, kind, d with
  | some .exclusive, .shared, .readCommitted =>
    { l with minReadWait := lowered l.minReadWait requester }
  | _, _, _ => l

/-- One attempt to take the lock. -/
def attempt (l : Lock) (requester : Nat) (kind : LockKind) (d : Discipline) : Attempt × Lock :=
  match l.answer requester kind d with
  | .granted => (.granted, l.grant requester kind)
  | .wait => (.wait, { l.await requester d with contended := true })
  | .refused => (.refused, { l.turnAway requester kind d with contended := true })

/-- Gives one hold back. Only a hold that exists can be given back. -/
def release (l : Lock) (kind : LockKind) : Except Fault Unit × Lock :=
  if l.count = 0 ∨ l.holder ≠ some kind then
    (.error (.releaseMismatch kind (l.holder, l.count)), l)
  else if l.count = 1 then (.ok (), { l with holder := none, count := 0, maxHolder := 0 })
  else (.ok (), { l with count := l.count - 1 })

/-- Raises the cached version to `v`. -/
def updateVersion (l : Lock) (v : Nat) : Lock := { l with version := raised l.version v }

/-- Caches `v` if no version is known. -/
def observeVersion (l : Lock) (v : Nat) : Lock := { l with version := some (l.version.getD v) }

/-- Advances a known version by one, which is assumed not to be the last one of its word. -/
def advanceVersion (l : Lock) : Lock := { l with version := l.version.map (· + 1) }

/-- The numbers of a lock fit the words in which they are stored. -/
structure Fits (l : Lock) : Prop where
  count : l.count < UInt32.size
  version : ∀ v ∈ l.version, v < UInt64.size

/-- The lock as its words have it: a number that does not fit has lost its highest bits. -/
def stored (l : Lock) : Lock :=
  { l with count := l.count % UInt32.size, version := l.version.map (· % UInt64.size) }

instance (l : Lock) : Decidable l.Fits :=
  decidable_of_iff (l.count < UInt32.size ∧ ∀ v ∈ l.version, v < UInt64.size)
    ⟨fun h => ⟨h.1, h.2⟩, fun h => ⟨h.count, h.version⟩⟩

/-- Numbers that fit lose nothing. -/
theorem Fits.stored {l : Lock} (h : l.Fits) : l.stored = l := by
  have hversion : l.version.map (· % UInt64.size) = l.version := by
    cases hv : l.version with
    | none => rfl
    | some v => exact congrArg some (Nat.mod_eq_of_lt (h.version v hv))
  simp only [Lock.stored, Nat.mod_eq_of_lt h.count, hversion]

/-- What is stored fits. -/
theorem fits_stored (l : Lock) : l.stored.Fits where
  count := Nat.mod_lt _ (by decide)
  version v hv := by
    obtain ⟨w, -, rfl⟩ := Option.map_eq_some_iff.1 hv
    exact Nat.mod_lt _ (by decide)

@[simp] theorem stored_stored (l : Lock) : l.stored.stored = l.stored := (fits_stored l).stored

/-- The lock remembers nothing that a later decision could need. -/
def stale (l : Lock) : Bool :=
  l.holder.isNone && !l.contended && l.minWriteWait.isNone && l.maxWriteWait.isNone &&
    l.version.isNone

@[simp] theorem attempt_fst (l : Lock) (requester : Nat) (kind : LockKind) (d : Discipline) :
    (l.attempt requester kind d).1 = l.answer requester kind d := by
  unfold attempt
  split <;> simp_all

/-- Whoever is granted a lock finds it free or joins holders of the same kind. -/
theorem holder_of_granted {l : Lock} {requester : Nat} {kind : LockKind} {d : Discipline}
    (h : l.answer requester kind d = .granted) :
    l.holder = none ∨ l.holder = some kind := by
  simp only [answer] at h
  split at h
  · exact .inl (by assumption)
  · exact .inr (by assumption)
  · split at h <;> cases h
  · cases h
  · cases h
  · exact .inr (by assumption)

/-- Only a writer is told to wait, for readers. -/
theorem holder_of_wait {l : Lock} {requester : Nat} {kind : LockKind} {d : Discipline}
    (h : l.answer requester kind d = .wait) :
    l.holder = some .shared ∧ kind = .exclusive := by
  simp only [answer] at h
  split at h
  · cases h
  · split at h <;> cases h
  · exact ⟨by assumption, rfl⟩
  · cases h
  · cases h
  · cases h

/-- An attempt that is not granted leaves the holders alone. -/
theorem attempt_holder {l : Lock} {requester : Nat} {kind : LockKind} {d : Discipline}
    (h : l.answer requester kind d ≠ .granted) :
    (l.attempt requester kind d).2.holder = l.holder ∧
      (l.attempt requester kind d).2.count = l.count ∧
      (l.attempt requester kind d).2.maxHolder = l.maxHolder := by
  unfold attempt
  split
  · contradiction
  · simp [await]
  · unfold turnAway
    split <;> simp

@[simp] theorem attempt_version (l : Lock) (requester : Nat) (kind : LockKind) (d : Discipline) :
    (l.attempt requester kind d).2.version = l.version := by
  unfold attempt
  split
  · unfold grant
    split <;> simp [withdraw]
  · simp [await]
  · unfold turnAway
    split <;> simp

theorem release_eq_ok {l m : Lock} {kind : LockKind} (h : l.release kind = (.ok (), m)) :
    l.holder = some kind ∧ m.count + 1 = l.count := by
  unfold release at h
  split at h
  · cases h
  · rename_i hl
    simp only [not_or, ne_eq, Decidable.not_not] at hl
    split at h
    · rename_i hone
      cases h
      exact ⟨hl.2, hone.symm⟩
    · cases h
      exact ⟨hl.2, by dsimp only; omega⟩

/-- A hold that is given back leaves the version alone. -/
theorem release_version (l : Lock) (kind : LockKind) : (l.release kind).2.version = l.version := by
  unfold release
  split
  · rfl
  · split <;> rfl

/-- A lock that does not give a hold back is as it was. -/
theorem release_eq_error {l m : Lock} {kind : LockKind} {f : Fault}
    (h : l.release kind = (.error f, m)) : m = l := by
  unfold release at h
  split at h
  · cases h
    rfl
  · split at h <;> cases h

end Lock

end LiveIsolation
