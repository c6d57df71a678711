import LiveIsolation.LockTable.Basic
import LiveIsolation.Proofs.Ordered
import Mathlib.Logic.Function.Basic

/-!
# What a lock table shows

A lock table is read through two views of each row: who holds the row's lock (`hold?`), and
the version that is cached for it (`cached?`). A row without a lock looks like one whose lock
was never used, and so does a row whose lock has been dropped because it remembered nothing.
Every operation on a table is described by what it does to the two views (`Becomes`), so that
buckets, pruning and the pending marks need not be looked at again.
-/

namespace LiveIsolation

namespace Lock

/-- The kind of the holders and their number; none if the lock is free. -/
def hold? (l : Lock) : Option (LockKind × Nat) := l.holder.map (·, l.count)

theorem hold?_of_stale {l : Lock} (h : l.stale = true) : l.hold? = none := by
  simp only [stale, Bool.and_eq_true, Option.isNone_iff_eq_none] at h
  simp [hold?, h.1.1.1.1]

theorem version_of_stale {l : Lock} (h : l.stale = true) : l.version = none := by
  simp only [stale, Bool.and_eq_true, Option.isNone_iff_eq_none] at h
  exact h.2

/-- The holders of a lock and one more of a kind. -/
def joined (held : Option (LockKind × Nat)) (kind : LockKind) : Option (LockKind × Nat) :=
  some (kind, held.elim 0 Prod.snd + 1)

/-- A free lock is granted to whoever asks. -/
theorem answer_free {l : Lock} (h : l.hold? = none) (requester : Nat) (kind : LockKind)
    (d : Discipline) : l.answer requester kind d = .granted := by
  have hholder : l.holder = none := by simpa [hold?] using h
  simp [answer, hholder]

/-- A lock that a writer holds is granted to a writer under read committed. -/
theorem answer_writers {l : Lock} {n : Nat} (h : l.hold? = some (.exclusive, n))
    (requester : Nat) : l.answer requester .exclusive .readCommitted = .granted := by
  have hholder : l.holder = some .exclusive ∧ l.count = n := by simpa [hold?] using h
  simp [answer, hholder.1]

/-- Whoever is granted a lock joins holders of the same kind, and writers join each other only
under read committed. -/
theorem hold?_of_granted {l : Lock} {requester : Nat} {kind : LockKind} {d : Discipline}
    (h : l.answer requester kind d = .granted) :
    (l.attempt requester kind d).2.hold? = joined l.hold? kind ∧
      ∀ k n, l.hold? = some (k, n) → k = kind ∧ (kind = .exclusive → d = .readCommitted) := by
  have hattempt : (l.attempt requester kind d).2 = l.grant requester kind := by
    rw [attempt, h]
  rw [hattempt]
  cases hholder : l.holder with
  | none => cases kind <;> simp [grant, hholder, hold?, withdraw, joined]
  | some k =>
      have hkind : k = kind ∧ (kind = .exclusive → d = .readCommitted) := by
        simp only [answer, hholder] at h
        cases k <;> cases kind <;> cases d <;> grind
      refine ⟨by simp [grant, hholder, hold?, joined, hkind.1], ?_⟩
      intro k' n hk'
      simp only [hold?, hholder, Option.map_some, Option.some.injEq, Prod.mk.injEq] at hk'
      exact hk'.1 ▸ hkind

/-- Whoever is not granted a lock leaves the holders alone. -/
theorem hold?_of_not_granted {l : Lock} {requester : Nat} {kind : LockKind} {d : Discipline}
    (h : l.answer requester kind d ≠ .granted) :
    (l.attempt requester kind d).2.hold? = l.hold? := by
  obtain ⟨hholder, hcount, -⟩ := attempt_holder h
  rw [hold?, hold?, hholder, hcount]

/-- A hold can be given back, and a lock that has no other holder is then free. -/
theorem release_of_hold? {l : Lock} {kind : LockKind} {n : Nat}
    (h : l.hold? = some (kind, n + 1)) :
    ∃ m, l.release kind = (.ok (), m) ∧ m.hold? = (if n = 0 then none else some (kind, n)) ∧
      m.version = l.version := by
  have hl : l.holder = some kind ∧ l.count = n + 1 := by
    simpa [hold?] using h
  have hheld : ¬(l.count = 0 ∨ l.holder ≠ some kind) := by simp [hl.1, hl.2]
  rw [release, if_neg hheld]
  by_cases hn : n = 0
  · refine ⟨{ l with holder := none, count := 0, maxHolder := 0 }, ?_, ?_, rfl⟩
    · rw [if_pos (by rw [hl.2, hn])]
    · rw [if_pos hn]
      rfl
  · refine ⟨{ l with count := l.count - 1 }, ?_, ?_, rfl⟩
    · rw [if_neg (by rw [hl.2]; omega)]
    · simp [hold?, hl.1, hl.2, hn]

end Lock

namespace RelationLocks

variable {r : RelationLocks}

/-- The locks stand in the order of their rows. -/
def Sorted (r : RelationLocks) : Prop := Ordered.Sorted (fun a b => decide (a < b)) r.entries

theorem Sorted.put (h : r.Sorted) (key : RowKey) (l : Lock) : (r.put key l).Sorted :=
  Ordered.sorted_insertWith _ h

theorem touch_eq {α : Type} (r : RelationLocks) (c : LockTableConfig) (key : RowKey)
    (f : Lock → α × Lock) :
    r.touch c key f =
      ((f (r.lockAt key)).1,
        (if (r.find? key).isSome then r else r.prune c key).put key (f (r.lockAt key)).2) := by
  simp only [touch]
  by_cases h : (r.find? key).isSome <;> simp [h]

@[simp] theorem attempt_fst (r : RelationLocks) (c : LockTableConfig) (key : RowKey)
    (requester : Nat) (kind : LockKind) (d : Discipline) :
    (r.attempt c key requester kind d).1 = (r.lockAt key).answer requester kind d := by
  rw [attempt, touch_eq]
  exact Lock.attempt_fst _ _ _ _

theorem prune_eq (r : RelationLocks) (c : LockTableConfig) (key : RowKey) :
    r.prune c key = r ∨
      r.prune c key =
        { r with entries := r.entries.filter fun e =>
            !(c.bucketOf e.1 == c.bucketOf key && e.2.stale) } := by
  by_cases h : c.pruneThreshold < r.entries.countP fun e => c.bucketOf e.1 == c.bucketOf key
  · exact .inr (if_pos h)
  · exact .inl (if_neg h)

theorem Sorted.prune (h : r.Sorted) (c : LockTableConfig) (key : RowKey) :
    (r.prune c key).Sorted := by
  rcases r.prune_eq c key with he | he
  · rw [he]
    exact h
  · rw [he]
    exact List.Pairwise.filter _ h

theorem Sorted.touch {α : Type} (h : r.Sorted) (c : LockTableConfig) (key : RowKey)
    (f : Lock → α × Lock) : (r.touch c key f).2.Sorted := by
  rw [touch_eq]
  split
  · exact h.put key _
  · exact (h.prune c key).put key _

@[simp] theorem lockAt_put (key k : RowKey) (l : Lock) :
    (r.put key l).lockAt k = if k = key then l else r.lockAt k := by
  simp only [lockAt]
  rw [find?_put]
  split <;> rfl

theorem lockAt_of_some {k : RowKey} {l : Lock} (h : r.find? k = some l) : r.lockAt k = l := by
  rw [lockAt, h, Option.getD_some]

theorem lockAt_of_none {k : RowKey} (h : r.find? k = none) : r.lockAt k = {} := by
  rw [lockAt, h, Option.getD_none]

/-- The version that is known for a row is that of its lock. -/
theorem version?_eq (r : RelationLocks) (key : RowKey) :
    r.version? key = (r.lockAt key).version := by
  simp only [version?, lockAt]
  cases r.find? key <;> rfl

section View
variable {α β : Type} {view : Lock → β}

/-- Locks that remember nothing are dropped, and nothing looks different. -/
theorem view_prune (hview : ∀ k l, r.find? k = some l → l.stale = true → view l = view {})
    (h : r.Sorted) (c : LockTableConfig) (key k : RowKey) :
    view ((r.prune c key).lockAt k) = view (r.lockAt k) := by
  rcases r.prune_eq c key with he | he
  · rw [he]
  · rw [he]
    simp only [lockAt, find?]
    rw [Ordered.lookup_filter_sorted _ _ h]
    cases hl : r.entries.lookup k with
    | none => rfl
    | some l =>
        by_cases hs : l.stale = true
        · cases hb : c.bucketOf k == c.bucketOf key with
          | true => simp [hs, hb, Option.filter, hview k l hl hs]
          | false => simp [hb, Option.filter]
        · simp [hs, Option.filter]

/-- The lock of one row is changed, and nothing else looks different. -/
theorem view_touch (hview : ∀ k l, r.find? k = some l → l.stale = true → view l = view {})
    (h : r.Sorted) (c : LockTableConfig) (key k : RowKey) (f : Lock → α × Lock) :
    view ((r.touch c key f).2.lockAt k) =
      if k = key then view (f (r.lockAt key)).2 else view (r.lockAt k) := by
  rw [touch_eq, lockAt_put]
  split
  · rfl
  · split
    · rfl
    · exact view_prune hview h c key k

end View

end RelationLocks

namespace LockTable

/-- The lock of a row; a row without an entry has a lock that was never used. -/
def lockAt (t : LockTable) (p : Place) : Lock := (t.find? p.1).elim {} (·.lockAt p.2)

/-- Who holds a row: the kind of the holders and their number. -/
def hold? (t : LockTable) (p : Place) : Option (LockKind × Nat) := (t.lockAt p).hold?

/-- The version that is known for a row. -/
def cached? (t : LockTable) (p : Place) : Option Nat := (t.lockAt p).version

/-- Nobody holds a row. -/
def Free (t : LockTable) : Prop := ∀ p, t.hold? p = none

/-- The locks of each relation stand in order, and the relations of a list are known. -/
structure Fit (t : LockTable) (known : List String) : Prop where
  sorted : ∀ relation r, t.find? relation = some r → r.Sorted
  knows : ∀ relation ∈ known, ∃ r, t.find? relation = some r

variable {t : LockTable} {known : List String} {p : Place}

theorem lockAt_eq (t : LockTable) (p : Place) : t.lockAt p = (t.lock? p.1 p.2).getD {} := by
  simp only [lockAt, lock?]
  cases t.find? p.1 <;> rfl

theorem Fit.put (h : t.Fit known) (relation : String) {r : RelationLocks} (hr : r.Sorted) :
    (t.put relation r).Fit known where
  sorted name s hs := by
    rw [find?_put] at hs
    split at hs
    · rw [← Option.some.inj hs]
      exact hr
    · exact h.sorted name s hs
  knows name hname := by
    rw [find?_put]
    split
    · exact ⟨r, rfl⟩
    · exact h.knows name hname

/-- The locks of a relation are exchanged, and those of the others are left alone. -/
theorem lockAt_put (relation : String) (r : RelationLocks) (q : Place) :
    (t.put relation r).lockAt q = if q.1 = relation then r.lockAt q.2 else t.lockAt q := by
  simp only [lockAt]
  rw [find?_put]
  split <;> rfl

theorem lockAt_of_find? {r : RelationLocks} (h : t.find? p.1 = some r) :
    t.lockAt p = r.lockAt p.2 := by
  simp [lockAt, h]

theorem within_of_find? {α : Type} {relation : String} {r : RelationLocks}
    (h : t.find? relation = some r) (f : RelationLocks → α × RelationLocks) :
    t.within relation f = (.ok (f r).1, t.put relation (f r).2) := by
  simp [within, h]

/-- A relation whose locks look the same afterwards makes no difference to the table. -/
theorem view_put_same {β : Type} (view : Lock → β) {r s : RelationLocks}
    (hr : t.find? p.1 = some r) (hs : ∀ k, view (s.lockAt k) = view (r.lockAt k)) (q : Place) :
    view ((t.put p.1 s).lockAt q) = view (t.lockAt q) := by
  rw [lockAt_put]
  split
  · rename_i hq
    rw [hs, lockAt_of_find? (hq ▸ hr)]
  · rfl

/-- A relation in which the lock of one row looks different makes this difference to the table. -/
theorem view_put {β : Type} (view : Lock → β) {r s : RelationLocks} (hr : t.find? p.1 = some r)
    {x : β} (hs : ∀ k, view (s.lockAt k) = if k = p.2 then x else view (r.lockAt k)) (q : Place) :
    view ((t.put p.1 s).lockAt q) = if q = p then x else view (t.lockAt q) := by
  rw [lockAt_put]
  by_cases hrel : q.1 = p.1
  · rw [if_pos hrel, hs]
    by_cases hkey : q.2 = p.2
    · rw [if_pos hkey, if_pos (Prod.ext hrel hkey)]
    · rw [if_neg hkey, if_neg fun h => hkey (congrArg Prod.snd h), lockAt_of_find? (hrel ▸ hr)]
  · rw [if_neg hrel, if_neg fun h => hrel (congrArg Prod.fst h)]

/-- The lock of one row is changed, and nothing else looks different. -/
theorem view_put_touch {α β : Type} {view : Lock → β} {r : RelationLocks}
    (hview : ∀ k l, r.find? k = some l → l.stale = true → view l = view {})
    (hr : t.find? p.1 = some r) (hsorted : r.Sorted) (c : LockTableConfig) (f : Lock → α × Lock)
    (q : Place) :
    view ((t.put p.1 (r.touch c p.2 f).2).lockAt q) =
      if q = p then view (f (t.lockAt p)).2 else view (t.lockAt q) := by
  rw [lockAt_of_find? hr]
  exact view_put view hr (fun k => RelationLocks.view_touch hview hsorted c p.2 k f) q

/-- What a change of a single lock does to the holders. -/
theorem hold?_put_touch {α : Type} {r : RelationLocks} (hr : t.find? p.1 = some r)
    (hsorted : r.Sorted) (c : LockTableConfig) (f : Lock → α × Lock) :
    (t.put p.1 (r.touch c p.2 f).2).hold? =
      Function.update t.hold? p (f (t.lockAt p)).2.hold? := by
  funext q
  rw [Function.update_apply]
  exact view_put_touch (fun _ _ _ hl => Lock.hold?_of_stale hl) hr hsorted c f q

/-- What a change of a single lock does to the known versions. -/
theorem cached?_put_touch {α : Type} {r : RelationLocks} (hr : t.find? p.1 = some r)
    (hsorted : r.Sorted) (c : LockTableConfig) (f : Lock → α × Lock) :
    (t.put p.1 (r.touch c p.2 f).2).cached? =
      Function.update t.cached? p (f (t.lockAt p)).2.version := by
  funext q
  rw [Function.update_apply]
  exact view_put_touch (fun _ _ _ hl => Lock.version_of_stale hl) hr hsorted c f q

/-- A new table has the relations that it was made for, and no lock. -/
theorem find?_create {relations : List String} {config : LockTableConfig}
    (h : create relations config = .ok t) (relation : String) (r : RelationLocks) :
    t.find? relation = some r ↔ relation ∈ relations ∧ r = {} := by
  simp only [create] at h
  split at h
  · cases h
  · simp only [Except.ok.injEq] at h
    subst h
    have hempty : ∀ s, LockTable.find? ⟨config, (Ordered.ofList textLt relations).map
        (·, ({} : RelationLocks))⟩ relation = some s → relation ∈ relations ∧ s = {} := by
      intro s hs
      obtain ⟨name, hname, he⟩ := List.mem_map.1 (Ordered.mem_of_lookup hs)
      obtain ⟨rfl, rfl⟩ := Prod.mk.inj he
      exact ⟨(Ordered.mem_ofList textLt).1 hname, rfl⟩
    constructor
    · exact hempty r
    · rintro ⟨hmem, rfl⟩
      have hpair : (relation, ({} : RelationLocks)) ∈
          (Ordered.ofList textLt relations).map (·, ({} : RelationLocks)) :=
        List.mem_map_of_mem ((Ordered.mem_ofList textLt).2 hmem)
      obtain ⟨s, hs⟩ := Ordered.exists_lookup_of_mem hpair
      obtain ⟨-, rfl⟩ := hempty s hs
      exact hs

theorem lockAt_create {relations : List String} {config : LockTableConfig}
    (h : create relations config = .ok t) (p : Place) : t.lockAt p = {} := by
  simp only [lockAt]
  cases hr : t.find? p.1 with
  | none => rfl
  | some r =>
      obtain ⟨-, rfl⟩ := (find?_create h p.1 r).1 hr
      rfl

/-- A new table knows its relations, and nobody holds a row of it. -/
theorem create_eq_ok {relations : List String} {config : LockTableConfig}
    (h : create relations config = .ok t) :
    t.Fit relations ∧ t.Free ∧ ∀ q, t.cached? q = none := by
  refine ⟨⟨?_, ?_⟩, ?_, ?_⟩
  · intro relation r hr
    obtain ⟨-, rfl⟩ := (find?_create h relation r).1 hr
    exact List.Pairwise.nil
  · intro relation hrelation
    exact ⟨{}, (find?_create h relation {}).2 ⟨hrelation, rfl⟩⟩
  · intro q
    rw [hold?, lockAt_create h]
    rfl
  · intro q
    rw [cached?, lockAt_create h]

/-- A row that nobody holds is granted. -/
theorem acquire_free (h : t.Fit known) (hp : p.1 ∈ known) (hfree : t.hold? p = none)
    (requester : Nat) (kind : LockKind) (d : Discipline) :
    ∃ t', t.acquire p.1 p.2 requester kind d = (.ok .granted, t') ∧ t'.Fit known ∧
      t'.hold? = Function.update t.hold? p (some (kind, 1)) ∧ t'.cached? = t.cached? := by
  obtain ⟨r, hr⟩ := h.knows p.1 hp
  have hsorted := h.sorted p.1 r hr
  have hlock : (r.lockAt p.2).hold? = none := by
    rw [← lockAt_of_find? hr]
    exact hfree
  have hgrant := Lock.answer_free hlock requester kind d
  have hhold := (Lock.hold?_of_granted hgrant).1
  rw [hlock] at hhold
  have htry : ∀ left, r.tryOnce t.config p.2 requester kind d left =
      (some .granted, (r.attempt t.config p.2 requester kind d).2) := by
    intro left
    have hfst := r.attempt_fst t.config p.2 requester kind d
    rw [hgrant] at hfst
    simp only [RelationLocks.tryOnce]
    split
    · rename_i ha
      rw [ha]
    · rename_i ha
      rw [ha] at hfst
      cases hfst
    · rename_i ha
      rw [ha] at hfst
      cases hfst
  have hacquire : r.acquire t.config p.2 requester kind d =
      (.granted, (r.attempt t.config p.2 requester kind d).2) := by
    simp only [RelationLocks.acquire]
    cases t.config.wait.retries with
    | zero => simp [RelationLocks.acquireWithin, htry]
    | succ n => simp [RelationLocks.acquireWithin, htry]
  refine ⟨t.put p.1 (r.attempt t.config p.2 requester kind d).2, ?_, ?_, ?_, ?_⟩
  · rw [acquire, within_of_find? hr, hacquire]
  · exact h.put p.1 (hsorted.touch _ _ _)
  · rw [RelationLocks.attempt, hold?_put_touch hr hsorted, lockAt_of_find? hr, hhold]
    rfl
  · rw [RelationLocks.attempt, cached?_put_touch hr hsorted, Lock.attempt_version]
    exact Function.update_eq_self p t.cached?

/-- A row that is held has a lock. -/
theorem exists_of_hold? {held : LockKind × Nat} (h : t.hold? p = some held) :
    ∃ r, t.find? p.1 = some r ∧ ∃ l, r.find? p.2 = some l ∧ l.hold? = some held := by
  cases hr : t.find? p.1 with
  | none =>
      rw [hold?, lockAt, hr] at h
      cases h
  | some r =>
      rw [hold?, lockAt_of_find? hr, RelationLocks.lockAt] at h
      cases hl : r.find? p.2 with
      | none =>
          rw [hl] at h
          cases h
      | some l =>
          rw [hl] at h
          exact ⟨r, rfl, l, hl, h⟩

/-- The known versions after a row has been given back. -/
def released (cached : Place → Option Nat) (p : Place) (kind : LockKind) (advance : Bool) :
    Place → Option Nat :=
  if advance && kind == .exclusive then Function.update cached p ((cached p).map (· + 1))
  else cached

/-- A hold of a row is given back. -/
theorem release_of_hold? (h : t.Fit known) {kind : LockKind} {n : Nat}
    (hheld : t.hold? p = some (kind, n + 1)) (advance : Bool) :
    ∃ v t', t.release p.1 p.2 kind advance = (.ok v, t') ∧ t'.Fit known ∧
      t'.hold? = Function.update t.hold? p (if n = 0 then none else some (kind, n)) ∧
      t'.cached? = released t.cached? p kind advance := by
  obtain ⟨r, hr, l, hl, hhold⟩ := exists_of_hold? hheld
  obtain ⟨m, hm, hleft, hversion⟩ := Lock.release_of_hold? hhold
  have hlock : t.lockAt p = l := by
    rw [lockAt_of_find? hr, RelationLocks.lockAt_of_some hl]
  let freed := if advance && kind == .exclusive then m.advanceVersion else m
  have hfreed : freed.hold? = m.hold? := by
    simp only [freed]
    split <;> rfl
  have hput : (r.put p.2 freed).Sorted := (h.sorted p.1 r hr).put p.2 freed
  have hrelease : r.release t.config p.1 p.2 kind advance =
      .ok (freed.version, (r.put p.2 freed).signal t.config p.2) := by
    simp only [RelationLocks.release, hl, hm, freed]
  have hlocks : ∀ q, (t.put p.1 ((r.put p.2 freed).signal t.config p.2)).lockAt q =
      if q = p then freed else t.lockAt q :=
    view_put id hr fun k => RelationLocks.lockAt_put p.2 k freed
  refine ⟨freed.version, t.put p.1 ((r.put p.2 freed).signal t.config p.2), ?_, ?_, ?_, ?_⟩
  · simp only [release, hr, hrelease]
  · exact h.put p.1 hput
  · funext q
    rw [Function.update_apply, hold?, hlocks]
    split
    · exact hfreed.trans hleft
    · rfl
  · funext q
    rw [cached?, hlocks]
    have hm' : m.version = t.cached? p := by
      rw [hversion, cached?, hlock]
    cases ha : advance && kind == .exclusive with
    | true =>
        simp only [released, ha, freed, if_true, Function.update_apply]
        split
        · rw [← hm']
          rfl
        · rfl
    | false =>
        simp only [released, ha, freed, Bool.false_eq_true, if_false]
        split
        · rename_i hq
          rw [hq, hm']
        · rfl

/-- Asking for a version makes it known if a row has one, and asks the store if it is not known. -/
theorem currentVersion_eq (h : t.Fit known) (hp : p.1 ∈ known) (fetch : Except Fault (Option Nat)) :
    ∃ answer t', t.currentVersion p.1 p.2 fetch = (⟨answer, (t.cached? p).isNone⟩, t') ∧
      t'.Fit known ∧ t'.hold? = t.hold? ∧
      answer = (t.cached? p).elim fetch (fun v => .ok (some v)) ∧
      t'.cached? =
        match answer with
        | .ok v => Function.update t.cached? p v
        | .error _ => t.cached? := by
  obtain ⟨r, hr⟩ := h.knows p.1 hp
  have hsorted := h.sorted p.1 r hr
  have hversion : r.version? p.2 = t.cached? p := by
    rw [RelationLocks.version?_eq, cached?, lockAt_of_find? hr]
  have hcurrent : t.currentVersion p.1 p.2 fetch =
      ((r.currentVersion t.config p.2 fetch).1,
        t.put p.1 (r.currentVersion t.config p.2 fetch).2) := by
    rw [currentVersion, within_of_find? hr]
  have hsame : (t.put p.1 r).Fit known ∧ (t.put p.1 r).hold? = t.hold? ∧
      (t.put p.1 r).cached? = t.cached? :=
    ⟨h.put p.1 hsorted, funext (view_put_same Lock.hold? hr fun _ => rfl),
      funext (view_put_same Lock.version hr fun _ => rfl)⟩
  rw [hcurrent]
  cases hc : t.cached? p with
  | some v =>
      have hkeep : r.currentVersion t.config p.2 fetch = (⟨.ok (some v), false⟩, r) := by
        simp [RelationLocks.currentVersion, hversion, hc]
      rw [hkeep]
      refine ⟨_, _, rfl, hsame.1, hsame.2.1, rfl, ?_⟩
      rw [hsame.2.2]
      exact (Function.update_eq_self_iff.2 hc.symm).symm
  | none =>
      cases fetch with
      | error f =>
          have hkeep : r.currentVersion t.config p.2 (.error f) = (⟨.error f, true⟩, r) := by
            simp [RelationLocks.currentVersion, hversion, hc]
          rw [hkeep]
          exact ⟨_, _, rfl, hsame.1, hsame.2.1, rfl, hsame.2.2⟩
      | ok fetched =>
          cases fetched with
          | none =>
              have hkeep : r.currentVersion t.config p.2 (.ok none) = (⟨.ok none, true⟩, r) := by
                simp [RelationLocks.currentVersion, hversion, hc]
              rw [hkeep]
              refine ⟨_, _, rfl, hsame.1, hsame.2.1, rfl, ?_⟩
              rw [hsame.2.2]
              exact (Function.update_eq_self_iff.2 hc.symm).symm
          | some v =>
              have hlearn : r.currentVersion t.config p.2 (.ok (some v)) =
                  (⟨.ok (some v), true⟩, r.observeVersion t.config p.2 v) := by
                simp [RelationLocks.currentVersion, hversion, hc]
              rw [hlearn]
              refine ⟨_, _, rfl, h.put p.1 (hsorted.touch _ _ _), ?_, rfl, ?_⟩
              · rw [RelationLocks.observeVersion, hold?_put_touch hr hsorted]
                exact Function.update_eq_self p t.hold?
              · rw [RelationLocks.observeVersion, cached?_put_touch hr hsorted]
                have hfirst : ((t.lockAt p).observeVersion v).version = some v := by
                  rw [Lock.observeVersion, show (t.lockAt p).version = none from hc]
                  rfl
                rw [hfirst]

/-- A version that is reported for a row is known afterwards, unless a later one was. -/
theorem updateVersion_eq (h : t.Fit known) (hp : p.1 ∈ known) (v : Nat) :
    ∃ t', t.updateVersion p.1 p.2 v = (.ok (), t') ∧ t'.Fit known ∧ t'.hold? = t.hold? ∧
      t'.cached? = Function.update t.cached? p (Lock.raised (t.cached? p) v) := by
  obtain ⟨r, hr⟩ := h.knows p.1 hp
  have hsorted := h.sorted p.1 r hr
  refine ⟨t.put p.1 (r.updateVersion t.config p.2 v), ?_, ?_, ?_, ?_⟩
  · rw [updateVersion, within_of_find? hr]
  · exact h.put p.1 (hsorted.touch _ _ _)
  · rw [RelationLocks.updateVersion, hold?_put_touch hr hsorted]
    exact Function.update_eq_self p t.hold?
  · rw [RelationLocks.updateVersion, cached?_put_touch hr hsorted]
    rfl

/-- What an attempt to take a row comes to. -/
inductive Attempted (t : LockTable) (known : List String) (p : Place) (kind : LockKind)
    (d : Discipline) : Except Fault Attempt × LockTable → Prop where
  | unknown (f : Fault) : Attempted t known p kind d (.error f, t)
  | granted (t' : LockTable) (hfit : t'.Fit known)
    (hhold : t'.hold? = Function.update t.hold? p (Lock.joined (t.hold? p) kind))
    (hcached : t'.cached? = t.cached?)
    (hbeside : ∀ k n, t.hold? p = some (k, n) →
      k = kind ∧ (kind = .exclusive → d = .readCommitted)) :
    Attempted t known p kind d (.ok .granted, t')
  | denied (a : Attempt) (ha : a ≠ .granted) (t' : LockTable) (hfit : t'.Fit known)
    (hhold : t'.hold? = t.hold?) (hcached : t'.cached? = t.cached?) :
    Attempted t known p kind d (.ok a, t')

theorem attempt_inv (h : t.Fit known) (p : Place) (requester : Nat) (kind : LockKind)
    (d : Discipline) : Attempted t known p kind d (t.attempt p.1 p.2 requester kind d) := by
  cases hr : t.find? p.1 with
  | none =>
      have hattempt : t.attempt p.1 p.2 requester kind d =
          (.error (.unknownRelation p.1), t) := by
        simp only [attempt, within, hr]
      rw [hattempt]
      exact .unknown _
  | some r =>
      have hsorted := h.sorted p.1 r hr
      have hattempt : t.attempt p.1 p.2 requester kind d =
          (.ok ((t.lockAt p).answer requester kind d),
            t.put p.1 (r.attempt t.config p.2 requester kind d).2) := by
        rw [attempt, within_of_find? hr, RelationLocks.attempt_fst, lockAt_of_find? hr]
      have hfit : (t.put p.1 (r.attempt t.config p.2 requester kind d).2).Fit known :=
        h.put p.1 (hsorted.touch _ _ _)
      have hhold := hold?_put_touch hr hsorted t.config fun l => l.attempt requester kind d
      have hcached : (t.put p.1 (r.attempt t.config p.2 requester kind d).2).cached? =
          t.cached? := by
        rw [RelationLocks.attempt, cached?_put_touch hr hsorted, Lock.attempt_version]
        exact Function.update_eq_self p t.cached?
      rw [hattempt]
      by_cases ha : (t.lockAt p).answer requester kind d = .granted
      · obtain ⟨hjoined, hbeside⟩ := Lock.hold?_of_granted ha
        rw [hjoined] at hhold
        rw [ha]
        exact .granted _ hfit hhold hcached hbeside
      · rw [Lock.hold?_of_not_granted ha] at hhold
        exact .denied _ ha _ hfit (hhold.trans (Function.update_eq_self p t.hold?)) hcached

/-- A row that a writer holds is granted to a writer under read committed. -/
theorem attempt_writers {n : Nat} (h : t.hold? p = some (.exclusive, n)) (requester : Nat) :
    (t.attempt p.1 p.2 requester .exclusive .readCommitted).1 = .ok .granted := by
  obtain ⟨r, hr, l, hl, hhold⟩ := exists_of_hold? h
  rw [attempt, within_of_find? hr, RelationLocks.attempt_fst, RelationLocks.lockAt_of_some hl,
    Lock.answer_writers hhold]

/-- The lock of a row is changed if it is there, and what is seen of it stays. -/
theorem withdraw_eq (h : t.Fit known) (p : Place) (requester : Nat) :
    (t.withdraw p.1 p.2 requester).2.Fit known ∧
      (t.withdraw p.1 p.2 requester).2.hold? = t.hold? ∧
      (t.withdraw p.1 p.2 requester).2.cached? = t.cached? := by
  cases hr : t.find? p.1 with
  | none =>
      have hnone : t.withdraw p.1 p.2 requester = (.error (.unknownRelation p.1), t) := by
        simp only [withdraw, within, hr]
      rw [hnone]
      exact ⟨h, rfl, rfl⟩
  | some r =>
      have hsome : t.withdraw p.1 p.2 requester =
          (.ok (), t.put p.1 (r.withdraw p.2 requester)) := by
        rw [withdraw, within_of_find? hr]
      have hsorted := h.sorted p.1 r hr
      have hsame : ∀ {β : Type} (view : Lock → β), (∀ l, view (l.withdraw requester) = view l) →
          ∀ k, view ((r.withdraw p.2 requester).lockAt k) = view (r.lockAt k) := by
        intro β view hview k
        simp only [RelationLocks.withdraw, RelationLocks.change]
        cases hl : r.find? p.2 with
        | none => rfl
        | some l =>
            rw [RelationLocks.lockAt_put]
            split
            · rename_i hk
              rw [hview, hk, RelationLocks.lockAt_of_some hl]
            · rfl
      have hput : (r.withdraw p.2 requester).Sorted := by
        simp only [RelationLocks.withdraw, RelationLocks.change]
        split
        · exact hsorted.put _ _
        · exact hsorted
      rw [hsome]
      refine ⟨h.put p.1 hput, ?_, ?_⟩
      · funext q
        exact view_put_same Lock.hold? hr (hsame Lock.hold? fun _ => rfl) q
      · funext q
        exact view_put_same Lock.version hr (hsame Lock.version fun _ => rfl) q

/-- A version that is reported for a row becomes known if none is, and nothing else changes. -/
theorem observeVersion_eq (h : t.Fit known) (p : Place) (v : Nat) :
    (t.observeVersion p.1 p.2 v).2.Fit known ∧
      (t.observeVersion p.1 p.2 v).2.hold? = t.hold? ∧
      ∀ q w, t.cached? q = some w → (t.observeVersion p.1 p.2 v).2.cached? q = some w := by
  cases hr : t.find? p.1 with
  | none =>
      have hnone : t.observeVersion p.1 p.2 v = (.error (.unknownRelation p.1), t) := by
        simp only [observeVersion, within, hr]
      rw [hnone]
      exact ⟨h, rfl, fun _ _ hw => hw⟩
  | some r =>
      have hsome : t.observeVersion p.1 p.2 v =
          (.ok (), t.put p.1 (r.observeVersion t.config p.2 v)) := by
        rw [observeVersion, within_of_find? hr]
      have hsorted := h.sorted p.1 r hr
      rw [hsome]
      refine ⟨h.put p.1 (hsorted.touch _ _ _), ?_, ?_⟩
      · rw [RelationLocks.observeVersion, hold?_put_touch hr hsorted]
        exact Function.update_eq_self p t.hold?
      · intro q w hw
        rw [RelationLocks.observeVersion, cached?_put_touch hr hsorted, Function.update_apply]
        split
        · rename_i hq
          have hlock : (t.lockAt p).version = some w := hq ▸ hw
          simp only [Lock.observeVersion, hlock, Option.getD_some]
        · exact hw

/-- The version of a row that is read from a table is the known one. -/
theorem version?_eq_ok {v : Option Nat} (h : t.version? p.1 p.2 = .ok v) : v = t.cached? p := by
  cases hr : t.find? p.1 with
  | none => simp [version?, relation, hr, Except.map] at h
  | some r =>
      rw [cached?, lockAt_of_find? hr, ← RelationLocks.version?_eq]
      simpa [version?, relation, hr, Except.map] using h.symm

/-- The known version of a row can be read if its relation is known. -/
theorem version?_of_known (h : t.Fit known) (hp : p.1 ∈ known) :
    t.version? p.1 p.2 = .ok (t.cached? p) := by
  obtain ⟨r, hr⟩ := h.knows p.1 hp
  rw [version?, relation, hr, cached?, lockAt_of_find? hr, ← RelationLocks.version?_eq]
  rfl

/-- Giving a hold back keeps the locks in order, also where there is no such hold. -/
theorem Fit.release (h : t.Fit known) (p : Place) (kind : LockKind) (advance : Bool) :
    (t.release p.1 p.2 kind advance).2.Fit known := by
  simp only [LockTable.release]
  cases hr : t.find? p.1 with
  | none => exact h
  | some r =>
      cases hrelease : r.release t.config p.1 p.2 kind advance with
      | error f => simpa only [hrelease] using h
      | ok back =>
          simp only [hrelease]
          refine h.put p.1 ?_
          have hsorted := h.sorted p.1 r hr
          simp only [RelationLocks.release] at hrelease
          split at hrelease
          · cases hrelease
          · split at hrelease
            · cases hrelease
            · rw [← Except.ok.inj hrelease]
              exact hsorted.put p.2 _

end LockTable

end LiveIsolation
