import LiveIsolation.Lock
import Mathlib.Data.List.Basic
import Mathlib.Order.Lattice

/-!
# The ledger of a lock

A lock knows how many hold it and in which way, but not who they are. Its ledger (`Lock.Ledger`)
keeps beside it what it has granted and not got back, and what it has granted since it was last
free. Whatever calls are made, the count and the kind of the holders are those of the grants that
are outstanding, and the youngest holder that the lock remembers is the youngest that was granted
it since it was last free (`Lock.Ledger.Faithful`), also if that one has given it back. So a
writer is refused by younger readers that are gone (`Lock.Ledger.writer_refused_iff`).

## Implementation notes

A lock does not ask whose hold is given back. A release is entered for one of the grants of its
kind, and a call says for which one by a place among them, counted round, so that every way to
match releases with grants is the ledger of some calls.
-/

namespace LiveIsolation

namespace Lock

variable {l m : Lock} {requester : Nat} {kind : LockKind} {d : Discipline}

/-- A grant of a lock. -/
structure Grant where
  requester : Nat
  kind : LockKind
  deriving DecidableEq, Repr

/-- A call of a lock. -/
inductive Call where
  | attempt (requester : Nat) (kind : LockKind) (d : Discipline)
  | release (kind : LockKind) (place : Nat)
  | withdraw (requester : Nat)
  | updateVersion (v : Nat)
  | observeVersion (v : Nat)
  | advanceVersion
  deriving DecidableEq, Repr

/-- What an attempt comes to. -/
inductive Attempted (l : Lock) (requester : Nat) (kind : LockKind) (d : Discipline) :
    Attempt × Lock → Prop where
  | first (h : l.holder = none) : Attempted l requester kind d (.granted, l.grant requester kind)
  | beside (h : l.holder = some kind) : Attempted l requester kind d
    (.granted, { l with count := l.count + 1, maxHolder := max l.maxHolder requester })
  | waits (h : l.holder = some .shared) (hkind : kind = .exclusive) :
    Attempted l requester kind d (.wait, { l.await requester d with contended := true })
  | refused : Attempted l requester kind d
    (.refused, { l.turnAway requester kind d with contended := true })

theorem attempted (l : Lock) (requester : Nat) (kind : LockKind) (d : Discipline) :
    l.Attempted requester kind d (l.attempt requester kind d) := by
  unfold attempt
  split
  · rename_i hanswer
    rcases holder_of_granted hanswer with hfree | hheld
    · exact .first hfree
    · have hjoined : l.grant requester kind =
          { l with count := l.count + 1, maxHolder := max l.maxHolder requester } := by
        simp only [grant, hheld]
      rw [hjoined]
      exact .beside hheld
  · rename_i hanswer
    exact .waits (holder_of_wait hanswer).1 (holder_of_wait hanswer).2
  · exact .refused

/-- A lock that is granted while it is free has one holder. -/
theorem grant_of_free (h : l.holder = none) (requester : Nat) (kind : LockKind) :
    (l.grant requester kind).holder = some kind ∧ (l.grant requester kind).count = 1 ∧
      (l.grant requester kind).maxHolder = requester := by
  cases kind <;> simp [grant, h, withdraw]

/-- What a release comes to. -/
inductive Released (l : Lock) (kind : LockKind) : Except Fault Unit × Lock → Prop where
  | mismatch (f : Fault) (h : l.count = 0 ∨ l.holder ≠ some kind) : Released l kind (.error f, l)
  | last (h : l.holder = some kind) (hcount : l.count = 1) :
    Released l kind (.ok (), { l with holder := none, count := 0, maxHolder := 0 })
  | more (h : l.holder = some kind) (hcount : 1 < l.count) :
    Released l kind (.ok (), { l with count := l.count - 1 })

theorem released (l : Lock) (kind : LockKind) : l.Released kind (l.release kind) := by
  unfold release
  split
  · exact .mismatch _ (by assumption)
  · rename_i hheld
    rw [not_or, Decidable.not_not] at hheld
    split
    · exact .last hheld.2 (by assumption)
    · exact .more hheld.2 (by omega)

/-- A lock with what it has granted. -/
structure Ledger where
  lock : Lock := {}
  /-- The grants that have not been given back. -/
  held : List Grant := []
  /-- The grants since the lock was last free. -/
  since : List Grant := []
  deriving DecidableEq, Repr

namespace Ledger

/-- What is left of some grants when one of a kind is given back. -/
def giveBack (held : List Grant) (kind : LockKind) (place : Nat) : List Grant :=
  let own := held.filter (·.kind = kind)
  own[place % own.length]?.elim held held.erase

def take (g : Ledger) : Call → Ledger
  | .attempt requester kind d =>
    match g.lock.attempt requester kind d with
    | (.granted, l) => ⟨l, ⟨requester, kind⟩ :: g.held, ⟨requester, kind⟩ :: g.since⟩
    | (_, l) => { g with lock := l }
  | .release kind place =>
    match g.lock.release kind with
    | (.ok (), l) =>
      let held := giveBack g.held kind place
      ⟨l, held, if held = [] then [] else g.since⟩
    | (.error _, l) => { g with lock := l }
  | .withdraw requester => { g with lock := g.lock.withdraw requester }
  | .updateVersion v => { g with lock := g.lock.updateVersion v }
  | .observeVersion v => { g with lock := g.lock.observeVersion v }
  | .advanceVersion => { g with lock := g.lock.advanceVersion }

/-- The ledger of a lock that was never used, after some calls. -/
def run (calls : List Call) : Ledger := calls.foldl take {}

variable {g g' : Ledger} {held : List Grant}

/-- A grant of the kind goes, if there is one. -/
theorem exists_giveBack (h : ∃ x ∈ held, x.kind = kind) (place : Nat) :
    ∃ x ∈ held, x.kind = kind ∧ giveBack held kind place = held.erase x := by
  have hown : ∀ x, x ∈ held.filter (·.kind = kind) ↔ x ∈ held ∧ x.kind = kind := by
    simp [List.mem_filter]
  obtain ⟨x, hx, hkind⟩ := h
  have hlt : place % (held.filter (·.kind = kind)).length < (held.filter (·.kind = kind)).length :=
    Nat.mod_lt _ (List.length_pos_of_mem ((hown x).2 ⟨hx, hkind⟩))
  obtain ⟨hmem, hof⟩ := (hown _).1 (List.getElem_mem hlt)
  refine ⟨_, hmem, hof, ?_⟩
  rw [giveBack, List.getElem?_eq_getElem hlt]
  rfl

/-- The count, the kind and the youngest holder that a lock remembers are those of the grants. -/
structure Faithful (g : Ledger) : Prop where
  count : g.lock.count = g.held.length
  subset : ∀ x ∈ g.held, x ∈ g.since
  kind : ∀ x ∈ g.since, g.lock.holder = some x.kind
  free : g.held = [] → g.lock.holder = none ∧ g.since = [] ∧ g.lock.maxHolder = 0
  le_youngest : ∀ x ∈ g.since, x.requester ≤ g.lock.maxHolder
  youngest : g.held ≠ [] → ∃ x ∈ g.since, x.requester = g.lock.maxHolder

theorem faithful_unused : ({} : Ledger).Faithful where
  count := rfl
  subset _ hx := hx
  kind _ hx := absurd hx List.not_mem_nil
  free _ := ⟨rfl, rfl, rfl⟩
  le_youngest _ hx := absurd hx List.not_mem_nil
  youngest hne := absurd rfl hne

/-- What else the lock remembers does not matter. -/
theorem Faithful.withLock (h : g.Faithful) (hholder : l.holder = g.lock.holder)
    (hcount : l.count = g.lock.count) (hyoungest : l.maxHolder = g.lock.maxHolder) :
    Faithful { g with lock := l } where
  count := hcount.trans h.count
  subset := h.subset
  kind x hx := hholder.trans (h.kind x hx)
  free hnil := ⟨hholder.trans (h.free hnil).1, (h.free hnil).2.1, hyoungest.trans (h.free hnil).2.2⟩
  le_youngest x hx := hyoungest ▸ h.le_youngest x hx
  youngest hne := hyoungest ▸ h.youngest hne

/-- A lock is free if every grant has been given back. -/
theorem Faithful.free_iff (h : g.Faithful) : g.lock.holder = none ↔ g.held = [] := by
  constructor
  · intro hfree
    apply List.eq_nil_iff_forall_not_mem.2
    intro x hx
    rw [h.kind x (h.subset x hx)] at hfree
    cases hfree
  · exact fun hnil => (h.free hnil).1

/-- A lock that is held is held by a grant of its kind. -/
theorem Faithful.exists_held (h : g.Faithful) (hholder : g.lock.holder = some kind) :
    ∃ x ∈ g.held, x.kind = kind := by
  have hne : g.held ≠ [] := by
    rw [ne_eq, ← h.free_iff, hholder]
    simp
  obtain ⟨x, hx⟩ := List.exists_mem_of_ne_nil _ hne
  exact ⟨x, hx, Option.some.inj ((h.kind x (h.subset x hx)).symm.trans hholder)⟩

/-- A free lock has a grant of its own. -/
theorem Faithful.first (h : g.Faithful) (hfree : g.lock.holder = none) (x : Grant) :
    Faithful ⟨g.lock.grant x.requester x.kind, x :: g.held, x :: g.since⟩ := by
  obtain ⟨hholder, hcount, hyoungest⟩ := grant_of_free hfree x.requester x.kind
  have hnil := h.free_iff.1 hfree
  rw [hnil, (h.free hnil).2.1]
  refine ⟨hcount, fun _ hy => hy, ?_, fun hnil => absurd hnil (List.cons_ne_nil _ _), ?_, ?_⟩
  · intro y hy
    rw [List.mem_singleton.1 hy]
    exact hholder
  · intro y hy
    rw [List.mem_singleton.1 hy]
    exact hyoungest.ge
  · exact fun _ => ⟨x, List.mem_singleton_self x, hyoungest.symm⟩

/-- A grant beside others has their kind, and may be that of the youngest holder. -/
theorem Faithful.beside (h : g.Faithful) {x : Grant} (hheld : g.lock.holder = some x.kind) :
    Faithful ⟨{ g.lock with
        count := g.lock.count + 1
        maxHolder := max g.lock.maxHolder x.requester }, x :: g.held, x :: g.since⟩ := by
  obtain ⟨y, hy, -⟩ := h.exists_held hheld
  obtain ⟨z, hz, hyoungest⟩ := h.youngest (List.ne_nil_of_mem hy)
  refine ⟨congrArg (· + 1) h.count, fun w hw => ?_, fun w hw => ?_,
    fun hnil => absurd hnil (List.cons_ne_nil _ _), fun w hw => ?_, fun _ => ?_⟩
  · rcases List.mem_cons.1 hw with rfl | hw
    · exact List.mem_cons_self
    · exact List.mem_cons_of_mem _ (h.subset w hw)
  · rcases List.mem_cons.1 hw with rfl | hw
    · exact hheld
    · exact h.kind w hw
  · rcases List.mem_cons.1 hw with rfl | hw
    · exact le_max_right _ _
    · exact (h.le_youngest w hw).trans (le_max_left _ _)
  · rcases le_total g.lock.maxHolder x.requester with hle | hle
    · exact ⟨x, List.mem_cons_self, (max_eq_right hle).symm⟩
    · exact ⟨z, List.mem_cons_of_mem _ hz, hyoungest.trans (max_eq_left hle).symm⟩

theorem Faithful.attempt (h : g.Faithful) (requester : Nat) (kind : LockKind) (d : Discipline) :
    (g.take (.attempt requester kind d)).Faithful := by
  have hattempted := g.lock.attempted requester kind d
  have hdenied : (g.lock.attempt requester kind d).1 ≠ .granted →
      Faithful { g with lock := (g.lock.attempt requester kind d).2 } := by
    intro hne
    rw [attempt_fst] at hne
    obtain ⟨hholder, hcount, hyoungest⟩ := attempt_holder hne
    exact h.withLock hholder hcount hyoungest
  simp only [take]
  generalize g.lock.attempt requester kind d = x at hattempted hdenied
  cases hattempted with
  | first hfree => exact h.first hfree ⟨requester, kind⟩
  | beside hheld => exact h.beside (x := ⟨requester, kind⟩) hheld
  | waits _ _ => exact hdenied (by simp)
  | refused => exact hdenied (by simp)

theorem Faithful.release (h : g.Faithful) (kind : LockKind) (place : Nat) :
    (g.take (.release kind place)).Faithful := by
  have hreleased := g.lock.released kind
  simp only [take]
  generalize g.lock.release kind = x at hreleased
  cases hreleased with
  | mismatch f _ => exact h
  | last hholder hcount =>
      obtain ⟨x, hx, -, hback⟩ := exists_giveBack (h.exists_held hholder) place
      have hnil : giveBack g.held kind place = [] := by
        rw [hback, ← List.length_eq_zero_iff, List.length_erase_of_mem hx, ← h.count, hcount]
      simp only [hnil, if_true]
      exact faithful_unused.withLock rfl rfl rfl
  | more hholder hcount =>
      obtain ⟨x, hx, -, hback⟩ := exists_giveBack (h.exists_held hholder) place
      have hlength : (g.held.erase x).length = g.lock.count - 1 := by
        rw [List.length_erase_of_mem hx, h.count]
      have hne : g.held.erase x ≠ [] := by
        rw [← List.length_pos_iff, hlength]
        omega
      simp only [hback, if_neg hne]
      exact ⟨hlength.symm, fun y hy => h.subset y (List.mem_of_mem_erase hy), h.kind,
        fun hnil => absurd hnil hne, h.le_youngest, fun _ => h.youngest (List.ne_nil_of_mem hx)⟩

theorem Faithful.take (h : g.Faithful) (c : Call) : (g.take c).Faithful := by
  cases c with
  | attempt requester kind d => exact h.attempt requester kind d
  | release kind place => exact h.release kind place
  | withdraw requester => exact h.withLock rfl rfl rfl
  | updateVersion v => exact h.withLock rfl rfl rfl
  | observeVersion v => exact h.withLock rfl rfl rfl
  | advanceVersion => exact h.withLock rfl rfl rfl

theorem faithful_run (calls : List Call) : (run calls).Faithful :=
  List.foldlRecOn calls _ faithful_unused fun _ h c _ => h.take c

/-- A hold can be given back if there is a grant of its kind. -/
theorem Faithful.release_iff (h : g.Faithful) :
    (g.lock.release kind).1 = .ok () ↔ ∃ x ∈ g.held, x.kind = kind := by
  have hreleased := g.lock.released kind
  generalize g.lock.release kind = x at hreleased
  cases hreleased with
  | mismatch f hmismatch =>
      refine iff_of_false nofun ?_
      rintro ⟨x, hx, rfl⟩
      rcases hmismatch with hcount | hholder
      · rw [h.count, List.length_eq_zero_iff] at hcount
        rw [hcount] at hx
        cases hx
      · exact hholder (h.kind x (h.subset x hx))
  | last hholder _ => exact iff_of_true rfl (h.exists_held hholder)
  | more hholder _ => exact iff_of_true rfl (h.exists_held hholder)

theorem Faithful.take_release_of_none (h : g.Faithful) (hnone : ¬∃ x ∈ g.held, x.kind = kind)
    (place : Nat) : g.take (.release kind place) = g := by
  rw [← h.release_iff] at hnone
  simp only [Ledger.take]
  rcases hrelease : g.lock.release kind with ⟨f | u, l⟩
  · obtain rfl := release_eq_error hrelease
    rfl
  · exact absurd (congrArg Prod.fst hrelease) hnone

/-- A call of an attempt leaves the lock of that attempt. -/
theorem take_attempt_lock (g : Ledger) (requester : Nat) (kind : LockKind) (d : Discipline) :
    (g.take (.attempt requester kind d)).lock = (g.lock.attempt requester kind d).2 := by
  simp only [take]
  split <;> rename_i hattempt <;> rw [hattempt]

/-- A release does not ask who waits. -/
theorem take_release_marks (g : Ledger) (kind : LockKind) (place : Nat) :
    (g.take (.release kind place)).lock.minWriteWait = g.lock.minWriteWait ∧
      (g.take (.release kind place)).lock.maxWriteWait = g.lock.maxWriteWait := by
  have hreleased := g.lock.released kind
  simp only [take]
  generalize g.lock.release kind = x at hreleased
  cases hreleased with
  | mismatch f _ => exact ⟨rfl, rfl⟩
  | last _ _ => exact ⟨rfl, rfl⟩
  | more _ _ => exact ⟨rfl, rfl⟩

end Ledger

/-- The marks for the oldest and the youngest pending writer belong together. -/
inductive InOrder : Option Nat → Option Nat → Prop where
  | unset : InOrder none none
  | set {least greatest : Nat} (h : least ≤ greatest) : InOrder (some least) (some greatest)

theorem InOrder.withdraw (h : InOrder l.minWriteWait l.maxWriteWait) (requester : Nat) :
    InOrder (l.withdraw requester).minWriteWait (l.withdraw requester).maxWriteWait := by
  simp only [Lock.withdraw]
  generalize l.minWriteWait = least, l.maxWriteWait = greatest at h
  cases h with
  | unset => exact .unset
  | @set a b hle =>
      by_cases ha : a = requester
      · simp only [ha, if_true]
        exact .unset
      · simp only [Option.some.injEq, if_neg ha]
        by_cases hb : b = requester
        · simp only [if_pos hb]
          exact .set le_rfl
        · simp only [if_neg hb]
          exact .set hle

/-- Whichever rule keeps the oldest writer, it is not younger than the youngest. -/
theorem InOrder.await (h : InOrder l.minWriteWait l.maxWriteWait) (requester : Nat)
    (d : Discipline) :
    InOrder (l.await requester d).minWriteWait (l.await requester d).maxWriteWait := by
  simp only [Lock.await, raised, lowered]
  generalize l.minWriteWait = least, l.maxWriteWait = greatest at h
  cases h with
  | unset => cases d <;> exact .set le_rfl
  | set hle =>
      cases d with
      | snapshot => exact .set ((min_le_right _ _).trans (hle.trans (le_max_right _ _)))
      | readCommitted => exact .set (hle.trans (le_max_right _ _))

/-- A first grant takes a writer out of the marks. -/
theorem grant_marks_of_free (h : l.holder = none) (requester : Nat) (kind : LockKind) :
    let m := if kind = .exclusive then l.withdraw requester else l
    (l.grant requester kind).minWriteWait = m.minWriteWait ∧
      (l.grant requester kind).maxWriteWait = m.maxWriteWait := by
  cases kind <;> simp [grant, h, withdraw]

theorem turnAway_marks (l : Lock) (requester : Nat) (kind : LockKind) (d : Discipline) :
    (l.turnAway requester kind d).minWriteWait = l.minWriteWait ∧
      (l.turnAway requester kind d).maxWriteWait = l.maxWriteWait := by
  unfold turnAway
  split <;> exact ⟨rfl, rfl⟩

theorem InOrder.attempt (h : InOrder l.minWriteWait l.maxWriteWait) (requester : Nat)
    (kind : LockKind) (d : Discipline) :
    InOrder (l.attempt requester kind d).2.minWriteWait
      (l.attempt requester kind d).2.maxWriteWait := by
  have hattempted := l.attempted requester kind d
  generalize l.attempt requester kind d = x at hattempted
  cases hattempted with
  | first hfree =>
      obtain ⟨hmin, hmax⟩ := grant_marks_of_free hfree requester kind
      rw [hmin, hmax]
      split
      · exact h.withdraw requester
      · exact h
  | beside _ => exact h
  | waits _ _ => exact h.await requester d
  | refused =>
      obtain ⟨hmin, hmax⟩ := l.turnAway_marks requester kind d
      simpa only [hmin, hmax] using h

namespace Ledger

variable {g : Ledger}

theorem inOrder_take (h : InOrder g.lock.minWriteWait g.lock.maxWriteWait) (c : Call) :
    InOrder (g.take c).lock.minWriteWait (g.take c).lock.maxWriteWait := by
  cases c with
  | attempt requester kind d =>
      rw [take_attempt_lock]
      exact h.attempt requester kind d
  | release kind place =>
      obtain ⟨hmin, hmax⟩ := g.take_release_marks kind place
      rw [hmin, hmax]
      exact h
  | withdraw requester => exact h.withdraw requester
  | updateVersion v => exact h
  | observeVersion v => exact h
  | advanceVersion => exact h

/-- A writer that meets readers is refused or waits, by the youngest holder that the lock
remembers. -/
theorem answer_exclusive_of_shared (h : l.holder = some .shared) (requester : Nat)
    (d : Discipline) :
    l.answer requester .exclusive d = if requester < l.maxHolder then .refused else .wait := by
  simp only [answer, h]

/-- A writer that meets readers is refused if one that was granted the lock since it was last free
is younger. -/
theorem Faithful.refused_iff (h : g.Faithful) (hread : g.lock.holder = some .shared)
    (requester : Nat) (d : Discipline) :
    g.lock.answer requester .exclusive d = .refused ↔ ∃ x ∈ g.since, requester < x.requester := by
  obtain ⟨y, hy, -⟩ := h.exists_held hread
  obtain ⟨z, hz, hyoungest⟩ := h.youngest (List.ne_nil_of_mem hy)
  rw [answer_exclusive_of_shared hread]
  constructor
  · intro hrefused
    split at hrefused
    · exact ⟨z, hz, hyoungest ▸ ‹_›⟩
    · cases hrefused
  · rintro ⟨x, hx, hlt⟩
    rw [if_pos (hlt.trans_le (h.le_youngest x hx))]

/-- A writer that meets readers is refused if a younger one was granted the lock since it was last
free, and waits otherwise. So it is refused only by readers that are still there unless a younger
one came and all younger ones have gone. -/
theorem writer_refused_iff (calls : List Call) (requester : Nat) (d : Discipline)
    (hread : (run calls).lock.holder = some .shared) :
    let g := run calls
    (g.lock.answer requester .exclusive d = .refused ↔ ∃ x ∈ g.since, requester < x.requester) ∧
    (g.lock.answer requester .exclusive d = .wait ↔ ∀ x ∈ g.since, x.requester ≤ requester) ∧
    ((g.lock.answer requester .exclusive d = .refused ↔ ∃ x ∈ g.held, requester < x.requester) ↔
      ¬((∃ x ∈ g.since, requester < x.requester) ∧ ∀ x ∈ g.held, x.requester ≤ requester)) := by
  have h := faithful_run calls
  generalize run calls = g at hread h
  have hrefused := h.refused_iff hread requester d
  have hwait : g.lock.answer requester .exclusive d = .wait ↔
      ¬g.lock.answer requester .exclusive d = .refused := by
    rw [answer_exclusive_of_shared hread]
    split <;> simp
  refine ⟨hrefused, ?_, ?_⟩
  · rw [hwait, hrefused]
    simp only [not_exists, not_and, not_lt]
  · rw [hrefused]
    constructor
    · rintro hstill ⟨hcame, hgone⟩
      obtain ⟨x, hx, hlt⟩ := hstill.1 hcame
      exact absurd (hgone x hx) (not_le.2 hlt)
    · intro hgone
      refine ⟨fun hcame => ?_, fun ⟨x, hx, hlt⟩ => ⟨x, h.subset x hx, hlt⟩⟩
      by_contra hnone
      simp only [not_exists, not_and, not_lt] at hnone
      exact hgone ⟨hcame, hnone⟩

/-- Two readers, of which the younger has given the lock back. -/
def departed : List Call :=
  [.attempt 1 .shared .snapshot, .attempt 9 .shared .snapshot, .release .shared 0]

/-- A writer between the reader that is left and the one that is gone is refused. -/
theorem departed_reader_refuses :
    (run departed).lock.holder = some .shared ∧
      (run departed).lock.answer 5 .exclusive .snapshot = .refused ∧
      ¬∃ x ∈ (run departed).held, 5 < x.requester := by
  decide

theorem departed_refused_iff :
    (run departed).lock.holder = some .shared ∧
      let g := run departed
      (g.lock.answer 5 .exclusive .snapshot = .refused ↔ ∃ x ∈ g.since, 5 < x.requester) ∧
      (g.lock.answer 5 .exclusive .snapshot = .wait ↔ ∀ x ∈ g.since, x.requester ≤ 5) ∧
      ((g.lock.answer 5 .exclusive .snapshot = .refused ↔ ∃ x ∈ g.held, 5 < x.requester) ↔
        ¬((∃ x ∈ g.since, 5 < x.requester) ∧ ∀ x ∈ g.held, x.requester ≤ 5)) := by
  have hread : (run departed).lock.holder = some .shared := by decide
  exact ⟨hread, writer_refused_iff departed 5 .snapshot hread⟩

end Ledger

end Lock

end LiveIsolation
