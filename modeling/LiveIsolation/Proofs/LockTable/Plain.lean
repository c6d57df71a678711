import LiveIsolation.Proofs.LockTable.Views

/-!
# A table without buckets

From outside nothing is seen of the buckets of a lock table and of the locks that are dropped
from them. Whatever a table is asked, it answers as a plain map does in which the lock of each row
is there from the start and stays (`LockTable.Shows`). A lock is dropped when it remembers
nothing, but the test for this does not look at the whole lock. It is among the locks that can
come about (`Lock.Consistent`) that only an unused one passes it.
-/

namespace LiveIsolation

namespace Lock

variable {l : Lock} {requester : Nat} {kind : LockKind} {d : Discipline}

/-- A lock that nobody holds counts no holder and knows no youngest one, and a reader is marked
as turned away only if the lock was contended. -/
structure Consistent (l : Lock) : Prop where
  free : l.holder = none → l.count = 0 ∧ l.maxHolder = 0
  calm : l.contended = false → l.minReadWait = none

theorem consistent_unused : ({} : Lock).Consistent := ⟨fun _ => ⟨rfl, rfl⟩, fun _ => rfl⟩

/-- A lock that remembers nothing has not been used. -/
theorem Consistent.eq_unused (h : l.Consistent) (hstale : l.stale = true) : l = {} := by
  simp only [stale, Bool.and_eq_true, Option.isNone_iff_eq_none, Bool.not_eq_true'] at hstale
  obtain ⟨⟨⟨⟨hholder, hcontended⟩, hmin⟩, hmax⟩, hversion⟩ := hstale
  obtain ⟨hcount, hyoungest⟩ := h.free hholder
  have hread := h.calm hcontended
  cases l
  simp_all

theorem Consistent.withdraw (h : l.Consistent) (requester : Nat) :
    (l.withdraw requester).Consistent :=
  ⟨h.free, h.calm⟩

theorem Consistent.updateVersion (h : l.Consistent) (v : Nat) : (l.updateVersion v).Consistent :=
  ⟨h.free, h.calm⟩

theorem Consistent.observeVersion (h : l.Consistent) (v : Nat) :
    (l.observeVersion v).Consistent :=
  ⟨h.free, h.calm⟩

theorem Consistent.advanceVersion (h : l.Consistent) : l.advanceVersion.Consistent :=
  ⟨h.free, h.calm⟩

/-- A lock that is granted is held, and contended as before. -/
theorem grant_holder (l : Lock) (requester : Nat) (kind : LockKind) :
    (l.grant requester kind).holder.isSome = true ∧
      (l.grant requester kind).contended = l.contended ∧
      (l.grant requester kind).minReadWait = l.minReadWait := by
  cases hholder : l.holder with
  | none => cases kind <;> simp [Lock.grant, hholder, Lock.withdraw]
  | some k => simp [Lock.grant, hholder]

theorem Consistent.grant (h : l.Consistent) (requester : Nat) (kind : LockKind) :
    (l.grant requester kind).Consistent := by
  obtain ⟨hheld, hcontended, hread⟩ := l.grant_holder requester kind
  constructor
  · intro hfree
    rw [hfree] at hheld
    cases hheld
  · rw [hcontended, hread]
    exact h.calm

/-- An attempt that is not granted leaves a contended lock. -/
theorem Consistent.attempt (h : l.Consistent) (requester : Nat) (kind : LockKind)
    (d : Discipline) : (l.attempt requester kind d).2.Consistent := by
  by_cases hanswer : l.answer requester kind d = .granted
  · simpa only [Lock.attempt, hanswer] using h.grant requester kind
  · obtain ⟨hholder, hcount, hyoungest⟩ := attempt_holder hanswer
    refine ⟨by rw [hholder, hcount, hyoungest]; exact h.free, fun hcalm => ?_⟩
    have hcontended : (l.attempt requester kind d).2.contended = true := by
      simp only [Lock.attempt]
      split <;> simp_all
    rw [hcontended] at hcalm
    cases hcalm

theorem Consistent.release (h : l.Consistent) {m : Lock} (hm : l.release kind = (.ok (), m)) :
    m.Consistent := by
  obtain ⟨hholder, -⟩ := release_eq_ok hm
  simp only [Lock.release] at hm
  split at hm
  · cases hm
  · split at hm
    · rw [← (Prod.mk.inj hm).2]
      exact ⟨fun _ => ⟨rfl, rfl⟩, h.calm⟩
    · rw [← (Prod.mk.inj hm).2]
      refine ⟨fun hfree => ?_, h.calm⟩
      rw [show l.holder = none from hfree] at hholder
      cases hholder

/-- One attempt of an acquisition that has `left` waits left. -/
def tryOnce (l : Lock) (requester : Nat) (kind : LockKind) (d : Discipline) (left : Nat) :
    Option AcquireOutcome × Lock :=
  match l.attempt requester kind d with
  | (.granted, l) => (some .granted, l)
  | (.refused, l) => (some .refused, l.withdraw requester)
  | (.wait, l) => if left = 0 then (some .timedOut, l.withdraw requester) else (none, l)

/-- Attempts to take the lock until the requester has an outcome, or has waited `left` times. -/
def acquireWithin (l : Lock) (requester : Nat) (kind : LockKind) (d : Discipline) :
    Nat → AcquireOutcome × Lock
  | 0 =>
    let (outcome, l) := l.tryOnce requester kind d 0
    (outcome.getD .timedOut, l)
  | left + 1 =>
    match l.tryOnce requester kind d (left + 1) with
    | (some outcome, l) => (outcome, l)
    | (none, l) => l.acquireWithin requester kind d left

/-- Gives one hold back if it is there. The answer is the version then known. -/
def giveBack (l : Lock) (kind : LockKind) (advance : Bool) : Except Fault (Option Nat) × Lock :=
  match l.release kind with
  | (.ok (), m) =>
    let m := if advance && kind == .exclusive then m.advanceVersion else m
    (.ok m.version, m)
  | (.error f, m) => (.error f, m)

end Lock

/-- What is asked of the lock of a row. -/
inductive LockOp where
  | attempt (requester : Nat) (kind : LockKind) (d : Discipline)
  | acquire (requester : Nat) (kind : LockKind) (d : Discipline)
  | release (kind : LockKind)
  | releaseAndAdvance (kind : LockKind)
  | withdraw (requester : Nat)
  | updateVersion (v : Nat)
  | observeVersion (v : Nat)
  /-- The known version, or else the one that the store would answer with. -/
  | currentVersion (fetch : Except Fault (Option Nat))
  | version

structure LockCall where
  relation : String
  key : RowKey
  op : LockOp

inductive LockReply where
  | attempted (answer : Attempt)
  | acquired (outcome : AcquireOutcome)
  | version (v : Option Nat)
  | done
  deriving DecidableEq, Repr

namespace LockCall

def place (c : LockCall) : Place := (c.relation, c.key)

/-- The replies to calls that come one after another, and what they leave. -/
def serveAll {σ : Type} (serve : σ → LockCall → Except Fault LockReply × σ) (s : σ) :
    List LockCall → List (Except Fault LockReply) × σ
  | [] => ([], s)
  | c :: rest =>
    let (reply, s) := serve s c
    let (replies, s) := serveAll serve s rest
    (reply :: replies, s)

end LockCall

namespace LockTable

/-- Serves a call. -/
def serve (t : LockTable) (c : LockCall) : Except Fault LockReply × LockTable :=
  match c.op with
  | .attempt requester kind d =>
    (t.attempt c.relation c.key requester kind d).map (.map .attempted) id
  | .acquire requester kind d =>
    (t.acquire c.relation c.key requester kind d).map (.map .acquired) id
  | .release kind => (t.release c.relation c.key kind false).map (.map fun _ => .done) id
  | .releaseAndAdvance kind => (t.release c.relation c.key kind true).map (.map .version) id
  | .withdraw requester => (t.withdraw c.relation c.key requester).map (.map fun _ => .done) id
  | .updateVersion v => (t.updateVersion c.relation c.key v).map (.map fun _ => .done) id
  | .observeVersion v => (t.observeVersion c.relation c.key v).map (.map fun _ => .done) id
  | .currentVersion fetch =>
    (t.currentVersion c.relation c.key fetch).map (·.version.map .version) id
  | .version => ((t.version? c.relation c.key).map .version, t)

end LockTable

/-- A map from rows to locks. A requester waits for a lock up to a number of times. -/
structure PlainLocks where
  relations : List String
  retries : Nat
  lock : Place → Lock := fun _ => {}

namespace LockOp

/-- Asks a single lock. -/
def on (op : LockOp) (retries : Nat) (l : Lock) : Except Fault LockReply × Lock :=
  match op with
  | .attempt requester kind d => (l.attempt requester kind d).map (.ok ∘ .attempted) id
  | .acquire requester kind d =>
    (l.acquireWithin requester kind d retries).map (.ok ∘ .acquired) id
  | .release kind => (l.giveBack kind false).map (.map fun _ => .done) id
  | .releaseAndAdvance kind => (l.giveBack kind true).map (.map .version) id
  | .withdraw requester => (.ok .done, l.withdraw requester)
  | .updateVersion v => (.ok .done, l.updateVersion v)
  | .observeVersion v => (.ok .done, l.observeVersion v)
  | .currentVersion fetch =>
    match l.version, fetch with
    | some v, _ => (.ok (.version (some v)), l)
    | none, .ok (some v) => (.ok (.version (some v)), l.observeVersion v)
    | none, .ok none => (.ok (.version none), l)
    | none, .error f => (.error f, l)
  | .version => (.ok (.version l.version), l)

end LockOp

namespace PlainLocks

def serve (s : PlainLocks) (c : LockCall) : Except Fault LockReply × PlainLocks :=
  if c.relation ∈ s.relations then
    let (reply, l) := c.op.on s.retries (s.lock c.place)
    (reply, { s with lock := Function.update s.lock c.place l })
  else (.error (.unknownRelation c.relation), s)

end PlainLocks

namespace RelationLocks

variable {r : RelationLocks} {c : LockTableConfig} {key : RowKey}

/-- The locks stand in order, and each is consistent. -/
structure Sane (r : RelationLocks) : Prop where
  sorted : r.Sorted
  consistent : ∀ k, (r.lockAt k).Consistent

/-- A lock that remembers nothing looks like one that is not there. -/
theorem Sane.unused (h : r.Sane) (k : RowKey) (l : Lock) (hl : r.find? k = some l)
    (hstale : l.stale = true) : id l = id {} := by
  have hconsistent := h.consistent k
  rw [lockAt_of_some hl] at hconsistent
  exact hconsistent.eq_unused hstale

/-- What happens to the lock of one row and to no other. -/
structure Mirrors {α : Type} (r : RelationLocks) (key : RowKey) (x : α × RelationLocks)
    (y : α × Lock) : Prop where
  answer : x.1 = y.1
  sane : x.2.Sane
  locks : x.2.lockAt = Function.update r.lockAt key y.2

theorem Mirrors.lockAt_self {α : Type} {x : α × RelationLocks} {y : α × Lock}
    (h : r.Mirrors key x y) : x.2.lockAt key = y.2 := by
  rw [h.locks, Function.update_self]

/-- One thing after another happens to a lock. -/
theorem Mirrors.trans {α β : Type} {x : α × RelationLocks} {y : α × Lock}
    {x' : β × RelationLocks} {y' : β × Lock} (h : r.Mirrors key x y)
    (h' : x.2.Mirrors key x' y') : r.Mirrors key x' y' where
  answer := h'.answer
  sane := h'.sane
  locks := by rw [h'.locks, h.locks, Function.update_idem]

theorem Sane.update {s : RelationLocks} (h : r.Sane) {l : Lock} (hl : l.Consistent)
    (hsorted : s.Sorted) (hlocks : s.lockAt = Function.update r.lockAt key l) : s.Sane where
  sorted := hsorted
  consistent k := by
    rw [hlocks, Function.update_apply]
    split
    · exact hl
    · exact h.consistent k

/-- Nothing happens to the lock. -/
theorem Sane.mirrors_self {α : Type} (h : r.Sane) (key : RowKey) (a : α) :
    r.Mirrors key (a, r) (a, r.lockAt key) where
  answer := rfl
  sane := h
  locks := (Function.update_eq_self key r.lockAt).symm

theorem Sane.mirrors_put {α : Type} (h : r.Sane) (key : RowKey) (a : α) {l : Lock}
    (hl : l.Consistent) :
    r.Mirrors key (a, r.put key l) (a, l) := by
  have hlocks : (r.put key l).lockAt = Function.update r.lockAt key l := by
    ext k : 1
    rw [lockAt_put, Function.update_apply]
  exact ⟨rfl, h.update hl (h.sorted.put key l) hlocks, hlocks⟩

theorem Sane.mirrors_touch {α : Type} (h : r.Sane) (c : LockTableConfig) {f : Lock → α × Lock}
    (hf : (f (r.lockAt key)).2.Consistent) :
    r.Mirrors key (r.touch c key f) (f (r.lockAt key)) := by
  have hlocks : (r.touch c key f).2.lockAt =
      Function.update r.lockAt key (f (r.lockAt key)).2 := by
    ext k : 1
    rw [Function.update_apply]
    exact view_touch h.unused h.sorted c key k f
  refine ⟨?_, h.update hf (h.sorted.touch c key f) hlocks, hlocks⟩
  rw [touch_eq]

/-- The lock of one row is changed, and there is nothing to answer. -/
theorem Sane.mirrors_set (h : r.Sane) (c : LockTableConfig) (f : Lock → Lock)
    (hf : (f (r.lockAt key)).Consistent) :
    r.Mirrors key ((), (r.touch c key fun l => ((), f l)).2) ((), f (r.lockAt key)) :=
  h.mirrors_touch (f := fun l => ((), f l)) c hf

/-- A requester is withdrawn from a lock that is there; one that was never used knows none. -/
theorem Sane.mirrors_withdraw {α : Type} (h : r.Sane) (a : α) (key : RowKey) (requester : Nat) :
    r.Mirrors key (a, r.withdraw key requester) (a, (r.lockAt key).withdraw requester) := by
  have hconsistent := (h.consistent key).withdraw requester
  simp only [withdraw, change]
  cases hl : r.find? key with
  | none =>
      have hsame := h.mirrors_self key a
      rwa [lockAt_of_none hl] at hsame ⊢
  | some l =>
      rw [lockAt_of_some hl] at hconsistent ⊢
      exact h.mirrors_put key a hconsistent

theorem Sane.mirrors_attempt (h : r.Sane) (c : LockTableConfig) (key : RowKey) (requester : Nat)
    (kind : LockKind) (d : Discipline) :
    r.Mirrors key (r.attempt c key requester kind d)
      ((r.lockAt key).attempt requester kind d) :=
  h.mirrors_touch c ((h.consistent key).attempt requester kind d)

theorem Sane.mirrors_tryOnce (h : r.Sane) (c : LockTableConfig) (key : RowKey) (requester : Nat)
    (kind : LockKind) (d : Discipline) (left : Nat) :
    r.Mirrors key (r.tryOnce c key requester kind d left)
      ((r.lockAt key).tryOnce requester kind d left) := by
  have hattempt := h.mirrors_attempt c key requester kind d
  simp only [tryOnce, Lock.tryOnce]
  generalize r.attempt c key requester kind d = x at *
  generalize (r.lockAt key).attempt requester kind d = y at *
  obtain ⟨a, s⟩ := x
  obtain ⟨b, l⟩ := y
  obtain rfl : a = b := hattempt.answer
  have hlock : s.lockAt key = l := hattempt.lockAt_self
  have hgiveUp : ∀ outcome : Option AcquireOutcome,
      r.Mirrors key (outcome, s.withdraw key requester) (outcome, l.withdraw requester) := by
    intro outcome
    have hwithdraw := hattempt.sane.mirrors_withdraw outcome key requester
    rw [hlock] at hwithdraw
    exact hattempt.trans hwithdraw
  have hkeep : ∀ outcome : Option AcquireOutcome, r.Mirrors key (outcome, s) (outcome, l) :=
    fun _ => ⟨rfl, hattempt.sane, hattempt.locks⟩
  cases a with
  | granted => exact hkeep _
  | refused => exact hgiveUp _
  | wait =>
      simp only
      split
      · exact hgiveUp _
      · exact hkeep _

theorem Sane.mirrors_acquireWithin (h : r.Sane) (c : LockTableConfig) (key : RowKey)
    (requester : Nat) (kind : LockKind) (d : Discipline) (left : Nat) :
    r.Mirrors key (r.acquireWithin c key requester kind d left)
      ((r.lockAt key).acquireWithin requester kind d left) := by
  induction left generalizing r with
  | zero =>
      obtain ⟨hanswer, hsane, hlocks⟩ := h.mirrors_tryOnce c key requester kind d 0
      exact ⟨congrArg (fun o => Option.getD o AcquireOutcome.timedOut) hanswer, hsane, hlocks⟩
  | succ left ih =>
      have htry := h.mirrors_tryOnce c key requester kind d (left + 1)
      simp only [acquireWithin, Lock.acquireWithin]
      generalize r.tryOnce c key requester kind d (left + 1) = x at *
      generalize (r.lockAt key).tryOnce requester kind d (left + 1) = y at *
      obtain ⟨a, s⟩ := x
      obtain ⟨b, l⟩ := y
      obtain rfl : a = b := htry.answer
      cases a with
      | some outcome => exact ⟨rfl, htry.sane, htry.locks⟩
      | none =>
          have hlater := ih htry.sane
          rw [show s.lockAt key = l from htry.lockAt_self] at hlater
          exact htry.trans hlater

theorem Sane.mirrors_currentVersion (h : r.Sane) (c : LockTableConfig) (key : RowKey)
    (fetch : Except Fault (Option Nat)) :
    r.Mirrors key
      ((r.currentVersion c key fetch).map (·.version.map LockReply.version) id)
      ((LockOp.currentVersion fetch).on c.wait.retries (r.lockAt key)) := by
  simp only [currentVersion, LockOp.on]
  rw [version?_eq]
  cases (r.lockAt key).version with
  | some v => exact h.mirrors_self key _
  | none =>
      cases fetch with
      | error f => exact h.mirrors_self key _
      | ok fetched =>
          cases fetched with
          | none => exact h.mirrors_self key _
          | some v =>
              obtain ⟨-, hsane, hlocks⟩ :=
                h.mirrors_set c (·.observeVersion v) ((h.consistent key).observeVersion v)
              exact ⟨rfl, hsane, hlocks⟩

/-- A hold is given back as it is to the lock alone, apart from the text of the fault where the
row has no lock. -/
theorem Sane.release (h : r.Sane) (c : LockTableConfig) (relation : String) (key : RowKey)
    (kind : LockKind) (advance : Bool) :
    match r.release c relation key kind advance with
    | .ok (v, s) => r.Mirrors key (.ok v, s) ((r.lockAt key).giveBack kind advance)
    | .error f => ∃ g, (r.lockAt key).giveBack kind advance = (.error g, r.lockAt key) ∧
        f.cls = g.cls := by
  have hconsistent := h.consistent key
  simp only [RelationLocks.release]
  cases hl : r.find? key with
  | none =>
      rw [lockAt_of_none hl]
      exact ⟨.releaseMismatch kind (none, 0), rfl, rfl⟩
  | some l =>
      rw [lockAt_of_some hl] at hconsistent ⊢
      simp only [Lock.giveBack]
      rcases hm : l.release kind with ⟨f | u, m⟩
      · obtain rfl := Lock.release_eq_error hm
        exact ⟨f, rfl, rfl⟩
      · have hfreed : (if advance && kind == .exclusive then m.advanceVersion
            else m).Consistent := by
          split
          · exact (hconsistent.release hm).advanceVersion
          · exact hconsistent.release hm
        obtain ⟨-, hsane, hlocks⟩ := h.mirrors_put key () hfreed
        exact ⟨rfl, ⟨hsane.sorted, hsane.consistent⟩, hlocks⟩

end RelationLocks

namespace LockTable

variable {t : LockTable} {s : PlainLocks} {c : LockCall} {r : RelationLocks}

/-- A table has the locks of a plain map, apart from those that were never used. -/
structure Shows (t : LockTable) (s : PlainLocks) : Prop where
  relations : ∀ relation, (t.find? relation).isSome = true ↔ relation ∈ s.relations
  retries : t.config.wait.retries = s.retries
  sane : ∀ relation r, t.find? relation = some r → r.Sane
  locks : t.lockAt = s.lock

/-- A table and a plain map answer alike, and then have the same locks again. -/
structure Alike (x : Except Fault LockReply × LockTable)
    (y : Except Fault LockReply × PlainLocks) : Prop where
  reply : x.1.mapError Fault.cls = y.1.mapError Fault.cls
  table : x.2.Shows y.2

/-- The locks of one relation are exchanged. -/
theorem Shows.put (h : t.Shows s) {p : Place} (hr : t.find? p.1 = some r) {α : Type}
    {x : α × RelationLocks} {y : α × Lock} (hm : r.Mirrors p.2 x y) :
    (t.put p.1 x.2).Shows { s with lock := Function.update s.lock p y.2 } where
  relations name := by
    rw [find?_put, ← h.relations]
    split
    · rename_i hname
      rw [hname, hr]
      exact iff_of_true rfl rfl
    · exact Iff.rfl
  retries := h.retries
  sane name r' hr' := by
    rw [find?_put] at hr'
    split at hr'
    · rw [← Option.some.inj hr']
      exact hm.sane
    · exact h.sane name r' hr'
  locks := by
    have hlocks : ∀ q, (t.put p.1 x.2).lockAt q = if q = p then y.2 else t.lockAt q := by
      apply view_put id hr
      intro k
      rw [hm.locks, Function.update_apply]
      rfl
    ext q : 1
    rw [hlocks, h.locks]
    exact (Function.update_apply s.lock p y.2 q).symm

theorem serve_unknown (hr : t.find? c.relation = none) :
    t.serve c = (.error (.unknownRelation c.relation), t) := by
  cases hop : c.op <;>
    simp [serve, hop, attempt, acquire, release, withdraw, updateVersion, observeVersion,
      currentVersion, version?, relation, within, hr, Except.map]

/-- A relation that the workload does not have is unknown to both. -/
theorem Shows.serve_unknown (h : t.Shows s) (hr : t.find? c.relation = none) :
    Alike (t.serve c) (s.serve c) := by
  have hplain : s.serve c = (.error (.unknownRelation c.relation), s) := by
    have hmem : c.relation ∉ s.relations := by
      rw [← h.relations, hr]
      exact Bool.false_ne_true
    rw [PlainLocks.serve, if_neg hmem]
  rw [LockTable.serve_unknown hr, hplain]
  exact ⟨rfl, h⟩

theorem Shows.serve_known (h : t.Shows s) (hr : t.find? c.relation = some r)
    {reply : Except Fault LockReply} {l : Lock}
    (hop : c.op.on t.config.wait.retries (r.lockAt c.key) = (reply, l)) :
    s.serve c = (reply, { s with lock := Function.update s.lock c.place l }) := by
  have hmem : c.relation ∈ s.relations := by
    rw [← h.relations, hr]
    rfl
  have hlock : s.lock c.place = r.lockAt c.key := by
    rw [← h.locks]
    exact lockAt_of_find? (p := c.place) hr
  rw [PlainLocks.serve, if_pos hmem, hlock, ← h.retries, hop]

/-- A call comes to what the lock of the row alone gives. -/
theorem Shows.alike_put (h : t.Shows s) (hr : t.find? c.relation = some r)
    {x : Except Fault LockReply × RelationLocks}
    (hm : r.Mirrors c.key x (c.op.on t.config.wait.retries (r.lockAt c.key)))
    (hserve : t.serve c = (x.1, t.put c.relation x.2)) : Alike (t.serve c) (s.serve c) := by
  rw [hserve, h.serve_known hr rfl, hm.answer]
  exact ⟨rfl, h.put (p := c.place) hr hm⟩

/-- A call that changes nothing. -/
theorem Shows.alike_self (h : t.Shows s) (hr : t.find? c.relation = some r)
    {reply plain : Except Fault LockReply} (hserve : t.serve c = (reply, t))
    (hop : c.op.on t.config.wait.retries (r.lockAt c.key) = (plain, r.lockAt c.key))
    (hreply : reply.mapError Fault.cls = plain.mapError Fault.cls) :
    Alike (t.serve c) (s.serve c) := by
  have hlock : r.lockAt c.key = s.lock c.place := by
    rw [← h.locks]
    exact (lockAt_of_find? (p := c.place) hr).symm
  rw [hserve, h.serve_known hr hop, hlock, Function.update_eq_self]
  exact ⟨hreply, h⟩

/-- A call that concerns the locks of its relation alone. -/
theorem Shows.alike_within (h : t.Shows s) (hr : t.find? c.relation = some r) {α : Type}
    {f : RelationLocks → α × RelationLocks} {y : α × Lock} (reply : α → LockReply)
    (hserve : t.serve c = (t.within c.relation f).map (.map reply) id)
    (hm : r.Mirrors c.key (f r) y)
    (hop : c.op.on t.config.wait.retries (r.lockAt c.key) = (.ok (reply y.1), y.2)) :
    Alike (t.serve c) (s.serve c) := by
  refine h.alike_put (x := (.ok (reply (f r).1), (f r).2)) hr ?_ ?_
  · rw [hop, ← hm.answer]
    exact ⟨rfl, hm.sane, hm.locks⟩
  · rw [hserve, within_of_find? hr]
    rfl

/-- A hold is given back. -/
theorem Shows.alike_release (h : t.Shows s) (hr : t.find? c.relation = some r) {kind : LockKind}
    {advance : Bool} {reply : Option Nat → LockReply}
    (hserve : t.serve c = (t.release c.relation c.key kind advance).map (.map reply) id)
    (hop : c.op.on t.config.wait.retries (r.lockAt c.key) =
      ((r.lockAt c.key).giveBack kind advance).map (.map reply) id) :
    Alike (t.serve c) (s.serve c) := by
  have hback := (h.sane _ r hr).release t.config c.relation c.key kind advance
  cases hx : r.release t.config c.relation c.key kind advance with
  | error f =>
      rw [hx] at hback
      obtain ⟨g, hg, hcls⟩ := hback
      rw [hg] at hop
      have hserve' : t.serve c = (.error f, t) := by
        simp [hserve, LockTable.release, hr, hx, Except.map]
      refine h.alike_self hr hserve' hop ?_
      exact congrArg Except.error hcls
  | ok back =>
      rw [hx] at hback
      refine h.alike_put (x := (.ok (reply back.1), back.2)) hr ?_ ?_
      · rw [hop]
        exact ⟨congrArg (Except.map reply) hback.answer, hback.sane, hback.locks⟩
      · simp [hserve, LockTable.release, hr, hx, Except.map]

/-- Whatever is asked, a table answers as the plain map does. -/
theorem Shows.serve (h : t.Shows s) (c : LockCall) : Alike (t.serve c) (s.serve c) := by
  cases hr : t.find? c.relation with
  | none => exact h.serve_unknown hr
  | some r =>
      have hsane := h.sane _ r hr
      obtain ⟨relation, key, op⟩ := c
      cases op with
      | attempt requester kind d =>
          have hm := hsane.mirrors_attempt t.config key requester kind d
          exact h.alike_within hr .attempted rfl hm rfl
      | acquire requester kind d =>
          have hm := hsane.mirrors_acquireWithin t.config key requester kind d t.config.wait.retries
          exact h.alike_within hr .acquired rfl hm rfl
      | release kind => exact h.alike_release hr rfl rfl
      | releaseAndAdvance kind => exact h.alike_release hr rfl rfl
      | withdraw requester =>
          have hm := hsane.mirrors_withdraw () key requester
          exact h.alike_within hr (f := fun r => ((), r.withdraw key requester)) (fun _ => .done)
            rfl hm rfl
      | updateVersion v =>
          have hm := hsane.mirrors_set t.config (·.updateVersion v)
            ((hsane.consistent key).updateVersion v)
          exact h.alike_within hr (fun _ => .done) rfl hm rfl
      | observeVersion v =>
          have hm := hsane.mirrors_set t.config (·.observeVersion v)
            ((hsane.consistent key).observeVersion v)
          exact h.alike_within hr (fun _ => .done) rfl hm rfl
      | currentVersion fetch =>
          apply h.alike_put hr (hsane.mirrors_currentVersion t.config key fetch)
          simp only [LockTable.serve, LockTable.currentVersion, within_of_find? hr]
          rfl
      | version =>
          refine h.alike_self hr ?_ rfl rfl
          simp [LockTable.serve, LockTable.version?, LockTable.relation, hr, Except.map,
            RelationLocks.version?_eq]

/-- The replies to calls, up to the texts of faults, and the locks after them. -/
theorem Shows.serveAll (h : t.Shows s) (calls : List LockCall) :
    (LockCall.serveAll LockTable.serve t calls).1.map (Except.mapError Fault.cls) =
        (LockCall.serveAll PlainLocks.serve s calls).1.map (Except.mapError Fault.cls) ∧
      (LockCall.serveAll LockTable.serve t calls).2.Shows
        (LockCall.serveAll PlainLocks.serve s calls).2 := by
  induction calls generalizing t s with
  | nil => exact ⟨rfl, h⟩
  | cons c rest ih =>
      obtain ⟨hreply, htable⟩ := h.serve c
      obtain ⟨hreplies, hlast⟩ := ih htable
      refine ⟨?_, hlast⟩
      simp only [LockCall.serveAll, List.map_cons]
      rw [hreply, hreplies]

theorem shows_create {relations : List String} {config : LockTableConfig}
    (h : create relations config = .ok t) :
    t.Shows { relations, retries := config.wait.retries } where
  relations relation := by
    rw [Option.isSome_iff_exists]
    constructor
    · rintro ⟨r, hr⟩
      exact ((find?_create h relation r).1 hr).1
    · intro hmem
      exact ⟨{}, (find?_create h relation {}).2 ⟨hmem, rfl⟩⟩
  retries := by
    simp only [create] at h
    split at h
    · cases h
    · rw [← Except.ok.inj h]
  sane relation r hr := by
    obtain ⟨-, rfl⟩ := (find?_create h relation r).1 hr
    exact ⟨List.Pairwise.nil, fun _ => Lock.consistent_unused⟩
  locks := funext (lockAt_create h)

/-- A table with some number of buckets, whatever their size, answers every sequence of calls as
a plain map of locks does, up to the texts of faults. After it the locks that the table has are
those of the map, and the others have not been used there. -/
theorem create_serves_plain {config : LockTableConfig} (hbuckets : 0 < config.buckets)
    (relations : List String) :
    ∃ t, create relations config = .ok t ∧ ∀ calls,
      (LockCall.serveAll LockTable.serve t calls).1.map (Except.mapError Fault.cls) =
          (LockCall.serveAll PlainLocks.serve { relations, retries := config.wait.retries }
            calls).1.map (Except.mapError Fault.cls) ∧
        ∀ p, (LockCall.serveAll PlainLocks.serve { relations, retries := config.wait.retries }
            calls).2.lock p =
          ((LockCall.serveAll LockTable.serve t calls).2.lock? p.1 p.2).getD {} := by
  have hcreate : create relations config =
      .ok ⟨config, (Ordered.ofList textLt relations).map (·, {})⟩ := by
    rw [create, if_neg fun hnone => hbuckets.ne' hnone.1]
  refine ⟨_, hcreate, fun calls => ?_⟩
  obtain ⟨hreplies, hshows⟩ := (shows_create hcreate).serveAll calls
  refine ⟨hreplies, fun p => ?_⟩
  rw [← hshows.locks, lockAt_eq]

/-- One bucket, which is tidied before each lock that comes into being. -/
def crowded : LockTableConfig := { buckets := 1, pruneThreshold := 0 }

/-- The lock of the row 1 is used and remembers nothing. It is dropped when the row 2 gets one. -/
def dropsOne : List LockCall :=
  [⟨"x", 1, .attempt 7 .shared .snapshot⟩, ⟨"x", 1, .release .shared⟩,
    ⟨"x", 2, .updateVersion 5⟩, ⟨"x", 1, .release .shared⟩]

theorem crowded_serves_plain :
    0 < crowded.buckets ∧ ∃ t, create ["x"] crowded = .ok t ∧
      (LockCall.serveAll LockTable.serve t dropsOne).1.map (Except.mapError Fault.cls) =
        (LockCall.serveAll PlainLocks.serve { relations := ["x"], retries := 64 }
          dropsOne).1.map (Except.mapError Fault.cls) := by
  have hbuckets : 0 < crowded.buckets := by decide
  obtain ⟨t, hcreate, hserves⟩ := create_serves_plain hbuckets ["x"]
  exact ⟨hbuckets, t, hcreate, (hserves dropsOne).1⟩

example : (create ["x"] crowded).toOption.map
    (fun t => (LockCall.serveAll LockTable.serve t dropsOne).2.lock? "x" 1) = some none := by
  decide +kernel

end LockTable

end LiveIsolation
