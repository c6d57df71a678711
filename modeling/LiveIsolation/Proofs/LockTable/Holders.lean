import LiveIsolation.Proofs.LockTable.Beside

/-!
# Holders and versions after a call

What a single call of a lock table does to the holders of a row (`LockTable.holders`) and to the
version that is known for it. A call that is granted a lock makes one more holder, one that gives
a hold back makes one less, and all have the same kind. A version that is known stays known and is
never set back, and only four kinds of calls can move it (`LockOp.setsVersion`).
-/

namespace LiveIsolation

namespace LockOp

/-- What a reply has granted, and to whom. -/
def granted? : LockOp → LockReply → Option (Nat × LockKind)
  | .attempt requester kind _, .attempted .granted => some (requester, kind)
  | .acquire requester kind _, .acquired .granted => some (requester, kind)
  | _, _ => none

/-- The kind of the hold that a call gives back. -/
def returned? : LockOp → Option LockKind
  | .release kind => some kind
  | .releaseAndAdvance kind => some kind
  | _ => none

/-- The call can change the version that is known for a row. -/
def setsVersion : LockOp → Bool
  | .releaseAndAdvance kind => kind == .exclusive
  | .updateVersion _ => true
  | .observeVersion _ => true
  | .currentVersion _ => true
  | _ => false

variable {op : LockOp} (retries : Nat) (l : Lock)

/-- The holders of a lock after a call that gives nothing back. -/
inductive Joins (l : Lock) : Option (Nat × LockKind) → Lock → Prop where
  | granted (requester : Nat) (kind : LockKind) (m : Lock)
    (hhold : m.hold? = Lock.joined l.hold? kind)
    (hkind : ∀ k n, l.hold? = some (k, n) → k = kind) : Joins l (some (requester, kind)) m
  | apart (m : Lock) (hhold : m.hold? = l.hold?) : Joins l none m

theorem joins_on (h : op.returned? = none) :
    Joins l ((op.on retries l).1.toOption.bind op.granted?) (op.on retries l).2 := by
  cases op with
  | attempt requester kind d =>
      cases hattempt : l.attempt requester kind d with
      | mk a m =>
          have ha : l.answer requester kind d = a := by
            rw [← Lock.attempt_fst, hattempt]
          simp only [on, hattempt, Prod.map_apply, id_eq]
          by_cases hgranted : a = .granted
          · subst hgranted
            obtain ⟨hhold, hbeside⟩ := Lock.hold?_of_granted ha
            rw [hattempt] at hhold
            exact .granted requester kind m hhold fun k n hk => (hbeside k n hk).1
          · have hhold := Lock.hold?_of_not_granted (ha ▸ hgranted)
            rw [hattempt] at hhold
            cases a with
            | granted => exact absurd rfl hgranted
            | refused => exact .apart m hhold
            | wait => exact .apart m hhold
  | acquire requester kind d =>
      have hasked := l.asked_acquireWithin requester kind d retries
      simp only [on]
      generalize l.acquireWithin requester kind d retries = x at hasked ⊢
      obtain ⟨outcome, m⟩ := x
      simp only [Prod.map_apply, id_eq] at hasked ⊢
      cases hasked with
      | granted _ hhold hkind _ => exact .granted requester kind m hhold hkind
      | denied _ hne _ hhold _ =>
          cases outcome with
          | granted => exact absurd rfl hne
          | refused => exact .apart m hhold
          | timedOut => exact .apart m hhold
  | release kind => cases h
  | releaseAndAdvance kind => cases h
  | withdraw requester => exact .apart _ rfl
  | updateVersion v => exact .apart _ rfl
  | observeVersion v => exact .apart _ rfl
  | currentVersion fetch =>
      simp only [on]
      split
      · exact .apart _ rfl
      · exact .apart _ rfl
      · exact .apart _ rfl
      · exact .apart _ rfl
  | version => exact .apart _ rfl

/-- The version after a hold has been given back. -/
theorem version_giveBack (kind : LockKind) (advance : Bool) :
    (l.giveBack kind advance).2.version = l.version ∨
      (advance = true ∧ kind = .exclusive) ∧
        (l.giveBack kind advance).2.version = l.version.map (· + 1) := by
  have hversion := l.release_version kind
  simp only [Lock.giveBack]
  generalize l.release kind = x at hversion
  obtain ⟨answer, m⟩ := x
  cases answer with
  | error f => exact .inl hversion
  | ok u =>
      dsimp only
      split
      · rename_i hadvance
        exact .inr ⟨by simpa using hadvance, congrArg (Option.map (· + 1)) hversion⟩
      · exact .inl hversion

/-- A call that does not set the version leaves it. -/
theorem version_on (h : op.setsVersion = false) : (op.on retries l).2.version = l.version := by
  cases op with
  | attempt requester kind d => exact l.attempt_version requester kind d
  | acquire requester kind d => exact (l.asked_acquireWithin requester kind d retries).version_eq
  | release kind =>
      rcases version_giveBack l kind false with hsame | ⟨⟨hadvance, -⟩, -⟩
      · exact hsame
      · cases hadvance
  | releaseAndAdvance kind =>
      rcases version_giveBack l kind true with hsame | ⟨⟨-, rfl⟩, -⟩
      · exact hsame
      · cases h
  | withdraw requester => rfl
  | updateVersion w => cases h
  | observeVersion w => cases h
  | currentVersion fetch => cases h
  | version => rfl

/-- A version that is known stays known and is never set back. -/
theorem version_le_on (op : LockOp) {v : Nat} (hv : l.version = some v) :
    ∃ v', (op.on retries l).2.version = some v' ∧ v ≤ v' := by
  cases hsets : op.setsVersion with
  | false => exact ⟨v, (version_on retries l hsets).trans hv, le_rfl⟩
  | true =>
      cases op with
      | releaseAndAdvance kind =>
          rcases version_giveBack l kind true with hsame | ⟨-, hnext⟩
          · exact ⟨v, hsame.trans hv, le_rfl⟩
          · exact ⟨v + 1, hnext.trans (congrArg (Option.map (· + 1)) hv), Nat.le_succ v⟩
      | updateVersion w =>
          refine ⟨max w v, ?_, le_max_right w v⟩
          simp [on, Lock.updateVersion, hv, Lock.raised]
      | observeVersion w => exact ⟨v, by simp [on, Lock.observeVersion, hv], le_rfl⟩
      | currentVersion fetch => exact ⟨v, by simp [on, hv], le_rfl⟩
      | attempt | acquire | release | withdraw | version => cases hsets

end LockOp

/-- The lock that a call is about. -/
def LockCall.request (c : LockCall) (kind : LockKind) : LockRequest := ⟨c.relation, c.key, kind⟩

namespace LockTable

variable {t t' : LockTable} {known : List String} {p : Place} {q : LockRequest} {c : LockCall}

/-- How many hold a row in the way that a request asks for. -/
def holders (t : LockTable) (q : LockRequest) : Nat :=
  match t.hold? q.place with
  | some (kind, n) => if kind = q.kind then n else 0
  | none => 0

theorem holders_congr (h : t'.hold? = t.hold?) : t'.holders = t.holders := by
  funext q
  rw [holders, h, holders]

theorem hold?_of_holders (h : t.holders q ≠ 0) :
    ∃ n, t.hold? q.place = some (q.kind, n + 1) := by
  simp only [holders] at h
  split at h
  · rename_i kind n hhold
    split at h
    · rename_i hkind
      obtain ⟨m, rfl⟩ := Nat.exists_eq_succ_of_ne_zero h
      exact ⟨m, hkind ▸ hhold⟩
    · exact absurd rfl h
  · exact absurd rfl h

/-- A row has one more holder, of the kind that the others have. -/
theorem holders_of_joined
    (hhold : t'.hold? = Function.update t.hold? q.place (Lock.joined (t.hold? q.place) q.kind))
    (hkind : ∀ k n, t.hold? q.place = some (k, n) → k = q.kind) (x : LockRequest) :
    t'.holders x = t.holders x + if x = q then 1 else 0 := by
  by_cases hplace : x.place = q.place
  · simp only [holders, hhold, hplace, Function.update_self, Lock.joined, LockRequest.eq_iff,
      true_and]
    cases hq : t.hold? q.place with
    | none => grind
    | some held => grind
  · have hne : x ≠ q := by
      rintro rfl
      exact hplace rfl
    simp only [holders, hhold, Function.update_of_ne hplace, if_neg hne, Nat.add_zero]

/-- A row has one holder less. -/
theorem holders_of_left {n : Nat} (hheld : t.hold? q.place = some (q.kind, n + 1))
    (hhold : t'.hold? =
      Function.update t.hold? q.place (if n = 0 then none else some (q.kind, n)))
    (x : LockRequest) : t'.holders x + (if x = q then 1 else 0) = t.holders x := by
  by_cases hplace : x.place = q.place
  · simp only [holders, hhold, hplace, Function.update_self, hheld, LockRequest.eq_iff, true_and]
    grind
  · have hne : x ≠ q := by
      rintro rfl
      exact hplace rfl
    simp only [holders, hhold, Function.update_of_ne hplace, if_neg hne, Nat.add_zero]

/-- A hold that is there can be given back. -/
theorem release_of_holders (h : t.Fit known) (hq : t.holders q ≠ 0) (advance : Bool) :
    (∀ x, (t.release q.relation q.key q.kind advance).2.holders x + (if x = q then 1 else 0) =
        t.holders x) ∧
      (t.release q.relation q.key q.kind advance).2.cached? =
        released t.cached? q.place q.kind advance := by
  obtain ⟨n, hn⟩ := hold?_of_holders hq
  obtain ⟨v, t', hrelease, -, hhold, hcached⟩ := release_of_hold? h hn advance
  rw [show t.release q.relation q.key q.kind advance = _ from hrelease]
  exact ⟨holders_of_left hn hhold, hcached⟩

/-- What a call comes to: a fault about a relation that is not there, or what the lock of the row
alone answers. -/
inductive Served (t : LockTable) (c : LockCall) : Except Fault LockReply × LockTable → Prop where
  | unknown (f : Fault) : Served t c (.error f, t)
  | known (reply : Except Fault LockReply) (t' : LockTable)
    (hreply : reply.toOption = (c.op.on t.config.wait.retries (t.lockAt c.place)).1.toOption)
    (hlock : t'.lockAt = Function.update t.lockAt c.place
      (c.op.on t.config.wait.retries (t.lockAt c.place)).2) : Served t c (reply, t')

theorem Whole.served (h : t.Whole known) (c : LockCall) : t.Served c (t.serve c) := by
  cases hr : t.find? c.relation with
  | none =>
      rw [serve_unknown hr]
      exact .unknown _
  | some r =>
      cases hop : c.op.on t.config.wait.retries (t.lockAt c.place) with
      | mk reply l =>
          obtain ⟨hreply, hlock⟩ := (h.single hr).serve_eq List.mem_cons_self hop
          generalize t.serve c = x at hreply hlock ⊢
          obtain ⟨answer, t'⟩ := x
          refine .known answer t' ?_ (hop ▸ hlock)
          rw [hop]
          cases answer <;> cases reply <;> simp_all [Except.mapError, Except.toOption]

/-- A version that is known stays known, and is never set back. -/
theorem Whole.cached?_le_serve (h : t.Whole known) (c : LockCall) {v : Nat}
    (hv : t.cached? p = some v) : ∃ v', (t.serve c).2.cached? p = some v' ∧ v ≤ v' := by
  have hserved := h.served c
  generalize t.serve c = x at hserved
  cases hserved with
  | unknown f => exact ⟨v, hv, le_rfl⟩
  | known reply t' _ hlock =>
      rw [(views_of_update hlock).2, Function.update_apply]
      split
      · rename_i hp
        exact LockOp.version_le_on _ _ c.op (hp ▸ hv)
      · exact ⟨v, hv, le_rfl⟩

/-- A call for another row, or one that does not set the version, leaves the version of a row. -/
theorem Whole.cached?_serve (h : t.Whole known)
    (hsets : (c.place == p && c.op.setsVersion) = false) :
    (t.serve c).2.cached? p = t.cached? p := by
  have hserved := h.served c
  generalize t.serve c = x at hserved
  cases hserved with
  | unknown f => rfl
  | known reply t' _ hlock =>
      rw [(views_of_update hlock).2, Function.update_apply]
      split
      · rename_i hp
        rw [hp, beq_self_eq_true, Bool.true_and] at hsets
        rw [hp]
        exact LockOp.version_on _ _ hsets
      · rfl

/-- Who is granted a lock by a call becomes one more holder, and nobody else does. -/
theorem Whole.holders_serve (h : t.Whole known) (hreturned : c.op.returned? = none)
    (x : LockRequest) :
    (t.serve c).2.holders x = t.holders x +
      ((t.serve c).1.toOption.bind c.op.granted?).elim 0 fun g =>
        if x = c.request g.2 then 1 else 0 := by
  have hserved := h.served c
  generalize t.serve c = y at hserved
  cases hserved with
  | unknown f => rfl
  | known reply t' hreply hlock =>
      have hjoins := LockOp.joins_on t.config.wait.retries (t.lockAt c.place) hreturned
      have hhold := (views_of_update hlock).1
      simp only [hreply]
      generalize (c.op.on t.config.wait.retries (t.lockAt c.place)).1.toOption.bind c.op.granted? =
        g at hjoins ⊢
      generalize (c.op.on t.config.wait.retries (t.lockAt c.place)).2 = m at hjoins hhold
      cases hjoins with
      | granted requester kind _ hjoined hkind =>
          exact holders_of_joined (q := c.request kind) (hjoined ▸ hhold) hkind x
      | apart _ hsame =>
          have hviews : t'.hold? = t.hold? :=
            (hsame ▸ hhold).trans (Function.update_eq_self c.place t.hold?)
          rw [holders_congr hviews]
          rfl

/-- Who gives a hold back by a call is a holder less. -/
theorem Whole.holders_return (h : t.Whole known) {kind : LockKind}
    (hreturned : c.op.returned? = some kind) (hheld : t.holders (c.request kind) ≠ 0)
    (x : LockRequest) :
    (t.serve c).2.holders x + (if x = c.request kind then 1 else 0) = t.holders x := by
  obtain ⟨relation, key, op⟩ := c
  cases op with
  | release k =>
      cases hreturned
      exact (release_of_holders h.fit hheld false).1 x
  | releaseAndAdvance k =>
      cases hreturned
      exact (release_of_holders h.fit hheld true).1 x
  | attempt | acquire | withdraw | updateVersion | observeVersion | currentVersion | version =>
      cases hreturned

end LockTable

end LiveIsolation
