import LiveIsolation.Guard
import LiveIsolation.Proofs.LockTable.Plain

/-!
# Tables that calls lead to

Whatever calls a table has served since it was new, its locks could have come about
(`LockTable.Whole`): they are in order, an unused one cannot be told from one that was dropped,
and one that is held has a number of holders. What a guard does to a table is a list of such
calls (`LockTable.Reaches`).
-/

namespace LiveIsolation

namespace Lock

variable {l m : Lock} {kind : LockKind}

/-- A lock that is held has a number of holders. -/
def Counted (l : Lock) : Prop := ∀ k n, l.hold? = some (k, n) → n ≠ 0

theorem counted_unused : ({} : Lock).Counted := by
  intro k n h
  cases h

/-- What becomes of a lock for which a requester has asked, once or several times. No outcome
means that the requester waits. -/
inductive Asked (l : Lock) (kind : LockKind) : Option AcquireOutcome × Lock → Prop where
  | granted (m : Lock) (hhold : m.hold? = joined l.hold? kind)
    (hkind : ∀ k n, l.hold? = some (k, n) → k = kind) (hversion : m.version = l.version) :
    Asked l kind (some .granted, m)
  | denied (outcome : Option AcquireOutcome) (h : outcome ≠ some .granted) (m : Lock)
    (hhold : m.hold? = l.hold?) (hversion : m.version = l.version) : Asked l kind (outcome, m)

theorem asked_tryOnce (l : Lock) (requester : Nat) (kind : LockKind) (d : Discipline)
    (left : Nat) : l.Asked kind (l.tryOnce requester kind d left) := by
  have hversion := l.attempt_version requester kind d
  cases hattempt : l.attempt requester kind d with
  | mk a m =>
      have ha : l.answer requester kind d = a := by
        rw [← attempt_fst, hattempt]
      have hkept : a ≠ .granted → m.hold? = l.hold? := by
        intro hne
        have hhold := hold?_of_not_granted (ha ▸ hne)
        rwa [hattempt] at hhold
      rw [hattempt] at hversion
      simp only [tryOnce, hattempt]
      cases a with
      | granted =>
          obtain ⟨hhold, hbeside⟩ := hold?_of_granted ha
          rw [hattempt] at hhold
          exact .granted m hhold (fun k n h => (hbeside k n h).1) hversion
      | refused =>
          have hhold := hkept (by decide)
          exact .denied (some .refused) (by decide) (m.withdraw requester) hhold hversion
      | wait =>
          have hhold := hkept (by decide)
          dsimp only
          split
          · exact .denied (some .timedOut) (by decide) (m.withdraw requester) hhold hversion
          · exact .denied none (by decide) m hhold hversion

/-- However long a requester waits, in the end it has joined the holders or has left them
alone. -/
theorem asked_acquireWithin (l : Lock) (requester : Nat) (kind : LockKind) (d : Discipline)
    (left : Nat) :
    l.Asked kind ((l.acquireWithin requester kind d left).map some id) := by
  induction left generalizing l with
  | zero =>
      have hasked := l.asked_tryOnce requester kind d 0
      simp only [acquireWithin]
      generalize l.tryOnce requester kind d 0 = x at hasked
      cases hasked with
      | granted m hhold hkind hversion => exact .granted m hhold hkind hversion
      | denied outcome h m hhold hversion =>
          refine .denied _ ?_ m hhold hversion
          cases outcome with
          | none =>
              intro hgranted
              cases hgranted
          | some o => exact h
  | succ left ih =>
      have hasked := l.asked_tryOnce requester kind d (left + 1)
      simp only [acquireWithin]
      generalize l.tryOnce requester kind d (left + 1) = x at hasked
      cases hasked with
      | granted m hhold hkind hversion => exact .granted m hhold hkind hversion
      | denied outcome h m hhold hversion =>
          cases outcome with
          | some o => exact .denied _ h m hhold hversion
          | none =>
              have hlater := ih m
              dsimp only
              generalize Prod.map some id (m.acquireWithin requester kind d left) = y at hlater
              -- what the later attempts find is what the first one has left as it was
              cases hlater with
              | granted m' hhold' hkind' hversion' =>
                  rw [hhold] at hhold' hkind'
                  exact .granted m' hhold' hkind' (hversion'.trans hversion)
              | denied outcome' h' m' hhold' hversion' =>
                  exact .denied outcome' h' m' (hhold'.trans hhold) (hversion'.trans hversion)

theorem Asked.version_eq {x : Option AcquireOutcome × Lock} (hasked : l.Asked kind x) :
    x.2.version = l.version := by
  cases hasked with
  | granted m _ _ hversion => exact hversion
  | denied outcome _ m _ hversion => exact hversion

theorem Asked.counted {x : Option AcquireOutcome × Lock} (h : l.Counted)
    (hasked : l.Asked kind x) : x.2.Counted := by
  intro k n hk
  cases hasked with
  | granted m hhold _ _ =>
      rw [hhold, joined, Option.some.injEq, Prod.mk.injEq] at hk
      omega
  | denied outcome _ m hhold _ => exact h k n (hhold ▸ hk)

theorem Counted.attempt (h : l.Counted) (requester : Nat) (kind : LockKind) (d : Discipline) :
    (l.attempt requester kind d).2.Counted := by
  intro k n hk
  by_cases ha : l.answer requester kind d = .granted
  · rw [(hold?_of_granted ha).1, joined, Option.some.injEq, Prod.mk.injEq] at hk
    omega
  · exact h k n (hold?_of_not_granted ha ▸ hk)

theorem Counted.giveBack (h : l.Counted) (kind : LockKind) (advance : Bool) :
    (l.giveBack kind advance).2.Counted := by
  simp only [Lock.giveBack]
  rcases hm : l.release kind with ⟨f | u, m⟩
  · obtain rfl := release_eq_error hm
    exact h
  · obtain ⟨hholder, hcount⟩ := release_eq_ok hm
    have hhold : l.hold? = some (kind, m.count + 1) := by
      simp [hold?, hholder, hcount]
    obtain ⟨m', hm', hleft, -⟩ := release_of_hold? hhold
    obtain rfl : m = m' := (Prod.mk.inj (hm.symm.trans hm')).2
    have hcounted : m.Counted := by
      intro k n hk
      rw [hleft] at hk
      split at hk
      · cases hk
      · rename_i hn
        rw [Option.some.injEq, Prod.mk.injEq] at hk
        exact hk.2 ▸ hn
    dsimp only
    split
    · exact hcounted
    · exact hcounted

/-- Whatever is asked of a lock, one that is held keeps a number of holders. -/
theorem Counted.on (h : l.Counted) (op : LockOp) (retries : Nat) :
    (op.on retries l).2.Counted := by
  cases op with
  | attempt requester kind d => exact h.attempt requester kind d
  | acquire requester kind d => exact (l.asked_acquireWithin requester kind d retries).counted h
  | release kind => exact h.giveBack kind false
  | releaseAndAdvance kind => exact h.giveBack kind true
  | withdraw requester => exact h
  | updateVersion v => exact h
  | observeVersion v => exact h
  | currentVersion fetch =>
      simp only [LockOp.on]
      split
      · exact h
      · exact h
      · exact h
      · exact h
  | version => exact h

/-- Who holds a consistent lock says also how many holders it counts. -/
theorem Consistent.holder_eq (hl : l.Consistent) (hm : m.Consistent) (h : m.hold? = l.hold?) :
    m.holder = l.holder ∧ m.count = l.count := by
  cases hlh : l.holder with
  | none =>
      have hmh : m.holder = none := by simpa [hold?, hlh] using h
      exact ⟨hmh, (hm.free hmh).1.trans (hl.free hlh).1.symm⟩
  | some k =>
      have hboth : m.holder = some k ∧ m.count = l.count := by simpa [hold?, hlh] using h
      exact hboth

end Lock

namespace LockTable

variable {t t' t'' : LockTable} {known : List String} {c : LockCall}

/-- Some relations are known, and every lock could have come about. -/
structure Whole (t : LockTable) (known : List String) : Prop where
  knows : ∀ relation ∈ known, ∃ r, t.find? relation = some r
  sane : ∀ relation r, t.find? relation = some r → r.Sane
  counted : ∀ p, (t.lockAt p).Counted

/-- A relation that is there can be known. -/
theorem Whole.single (h : t.Whole known) {relation : String} {r : RelationLocks}
    (hr : t.find? relation = some r) : t.Whole [relation] where
  knows _ hname := ⟨r, List.mem_singleton.1 hname ▸ hr⟩
  sane := h.sane
  counted := h.counted

theorem Whole.fit (h : t.Whole known) : t.Fit known :=
  ⟨fun relation r hr => (h.sane relation r hr).sorted, h.knows⟩

theorem Whole.consistent (h : t.Whole known) (p : Place) : (t.lockAt p).Consistent := by
  cases hr : t.find? p.1 with
  | none =>
      rw [lockAt, hr]
      exact Lock.consistent_unused
  | some r =>
      rw [lockAt_of_find? hr]
      exact (h.sane p.1 r hr).consistent p.2

/-- Rows that are held alike have the same holders and count as many of them. -/
theorem Whole.holder_eq (h : t.Whole known) (h' : t'.Whole known) (hhold : t'.hold? = t.hold?)
    (p : Place) :
    (t'.lockAt p).holder = (t.lockAt p).holder ∧ (t'.lockAt p).count = (t.lockAt p).count :=
  (h.consistent p).holder_eq (h'.consistent p) (congrFun hhold p)

theorem whole_create {config : LockTableConfig} (h : create known config = .ok t) :
    t.Whole known where
  knows := (create_eq_ok h).1.knows
  sane := (shows_create h).sane
  counted p := by
    rw [lockAt_create h]
    exact Lock.counted_unused

/-- The plain map of a table's own locks. -/
def plain (t : LockTable) : PlainLocks where
  relations := t.relations.map Prod.fst
  retries := t.config.wait.retries
  lock := t.lockAt

theorem Whole.shows_plain (h : t.Whole known) : t.Shows t.plain where
  relations relation := by
    rw [find?, List.lookup_isSome_iff, plain, List.mem_map]
    apply exists_congr
    intro e
    apply and_congr_right
    intro _
    rw [beq_iff_eq, eq_comm]
  retries := rfl
  sane := h.sane
  locks := rfl

/-- Whatever is asked of a table, it stays whole. -/
theorem Whole.serve (h : t.Whole known) (c : LockCall) : (t.serve c).2.Whole known := by
  have hshows := (h.shows_plain.serve c).table
  have hrelations : (t.plain.serve c).2.relations = t.plain.relations := by
    simp only [PlainLocks.serve]
    split
    · rfl
    · rfl
  refine ⟨?_, hshows.sane, ?_⟩
  · intro relation hrelation
    rw [← Option.isSome_iff_exists, hshows.relations, hrelations, ← h.shows_plain.relations,
      Option.isSome_iff_exists]
    exact h.knows relation hrelation
  · intro p
    rw [hshows.locks]
    simp only [PlainLocks.serve]
    split
    · simp only [Function.update_apply]
      split
      · exact (h.counted c.place).on c.op _
      · exact h.counted p
    · exact h.counted p

/-- A row of a known relation answers as its lock alone does, and no other lock changes. -/
theorem Whole.serve_eq (h : t.Whole known) (hc : c.relation ∈ known)
    {reply : Except Fault LockReply} {l : Lock}
    (hop : c.op.on t.config.wait.retries (t.lockAt c.place) = (reply, l)) :
    (t.serve c).1.mapError Fault.cls = reply.mapError Fault.cls ∧
      (t.serve c).2.lockAt = Function.update t.lockAt c.place l := by
  obtain ⟨r, hr⟩ := h.knows c.relation hc
  have hlock : t.lockAt c.place = r.lockAt c.key := lockAt_of_find? hr
  rw [hlock] at hop
  obtain ⟨hreply, hshows⟩ := h.shows_plain.serve c
  have hserve := h.shows_plain.serve_known hr hop
  rw [hserve] at hreply hshows
  exact ⟨hreply, hshows.locks⟩

section Reaches

/-- Some calls lead from one table to another. -/
def Reaches (t t' : LockTable) : Prop :=
  ∃ calls : List LockCall, t' = (LockCall.serveAll LockTable.serve t calls).2

theorem Reaches.refl (t : LockTable) : t.Reaches t := ⟨[], rfl⟩

theorem reaches_serve (t : LockTable) (c : LockCall) : t.Reaches (t.serve c).2 := ⟨[c], rfl⟩

theorem Reaches.trans (h : t.Reaches t') (h' : t'.Reaches t'') : t.Reaches t'' := by
  obtain ⟨calls, rfl⟩ := h
  obtain ⟨later, rfl⟩ := h'
  refine ⟨calls ++ later, ?_⟩
  induction calls generalizing t with
  | nil => rfl
  | cons c rest ih => exact ih (t := (t.serve c).2)

/-- A whole table stays whole, whatever calls come. -/
theorem Whole.of_reaches (h : t.Whole known) (hreaches : t.Reaches t') : t'.Whole known := by
  obtain ⟨calls, rfl⟩ := hreaches
  induction calls generalizing t with
  | nil => exact h
  | cons c rest ih => exact ih (h.serve c)

theorem reaches_acquire (t : LockTable) (q : LockRequest) (requester : Nat) (d : Discipline) :
    t.Reaches (t.acquire q.relation q.key requester q.kind d).2 :=
  t.reaches_serve ⟨q.relation, q.key, .acquire requester q.kind d⟩

theorem reaches_release (t : LockTable) (q : LockRequest) (advance : Bool) :
    t.Reaches (t.release q.relation q.key q.kind advance).2 := by
  cases advance with
  | false => exact t.reaches_serve ⟨q.relation, q.key, .release q.kind⟩
  | true => exact t.reaches_serve ⟨q.relation, q.key, .releaseAndAdvance q.kind⟩

theorem reaches_currentVersion (t : LockTable) (relation : String) (key : RowKey)
    (fetch : Except Fault (Option Nat)) :
    t.Reaches (t.currentVersion relation key fetch).2 :=
  t.reaches_serve ⟨relation, key, .currentVersion fetch⟩

theorem reaches_updateVersion (t : LockTable) (relation : String) (key : RowKey) (v : Nat) :
    t.Reaches (t.updateVersion relation key v).2 :=
  t.reaches_serve ⟨relation, key, .updateVersion v⟩

theorem reaches_releaseAll (t : LockTable) (advance : Bool) (held : LockPlan) :
    t.Reaches (t.releaseAll advance held).2 := by
  induction held generalizing t with
  | nil => exact .refl t
  | cons q rest ih =>
      have hfirst := t.reaches_release q advance
      simp only [releaseAll]
      generalize t.release q.relation q.key q.kind advance = x at hfirst
      obtain ⟨answer, t₁⟩ := x
      cases answer with
      | ok v => exact hfirst.trans (ih t₁)
      | error f => exact hfirst.trans (ih t₁)

theorem reaches_acquireAll (t : LockTable) (requester : Nat) (d : Discipline)
    (held plan : LockPlan) : t.Reaches (t.acquireAll requester d held plan).2 := by
  induction plan generalizing t held with
  | nil => exact .refl t
  | cons q rest ih =>
      have hfirst := t.reaches_acquire q requester d
      simp only [acquireAll]
      generalize t.acquire q.relation q.key requester q.kind d = x at hfirst
      obtain ⟨answer, t₁⟩ := x
      have hback := hfirst.trans (t₁.reaches_releaseAll false held)
      cases answer with
      | error f => exact hback
      | ok outcome =>
          dsimp only
          cases q.conflict? outcome with
          | none => exact hfirst.trans (ih t₁ (held ++ [q]))
          | some conflict =>
              dsimp only
              generalize t₁.releaseAll false held = y at hback
              obtain ⟨result, t₂⟩ := y
              cases result with
              | ok u => exact hback
              | error f => exact hback

theorem reaches_guardAcquire (t : LockTable) (plan : LockPlan) (requester : Nat)
    (d : Discipline) : t.Reaches (Guard.acquire t plan requester d).2 := by
  have hall := t.reaches_acquireAll requester d [] plan
  simp only [Guard.acquire]
  generalize t.acquireAll requester d [] plan = x at hall
  obtain ⟨answer, locks⟩ := x
  cases answer with
  | error f => exact hall
  | ok held => exact hall

end Reaches

end LockTable

end LiveIsolation
