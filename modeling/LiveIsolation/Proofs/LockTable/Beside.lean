import LiveIsolation.Proofs.LockTable.Guard
import LiveIsolation.Proofs.LockTable.Whole

/-!
# Locks beside those of others

A commit takes and gives back its locks in a table in which others hold rows too. It gets the
rows of its plan beside their holders (`LockTable.Beside`), or one of them is denied and it keeps
none. When it has given them back, every row is held as before.
-/

namespace LiveIsolation

namespace LockPlan

theorem place_ne {held : LockPlan} {x q : LockRequest} (hq : q.place ∉ held.places)
    (hx : x ∈ held) : x.place ≠ q.place := by
  intro he
  exact hq (he ▸ List.mem_map_of_mem hx)

end LockPlan

/-- There is a conflict for whatever was not granted. -/
theorem LockRequest.exists_conflict (q : LockRequest) {outcome : AcquireOutcome}
    (h : outcome ≠ .granted) : ∃ conflict, q.conflict? outcome = some conflict := by
  cases outcome with
  | granted => exact absurd rfl h
  | refused => exact ⟨_, rfl⟩
  | timedOut => exact ⟨_, rfl⟩

namespace LockTable

variable {t t' before : LockTable} {known : List String} {p : Place}

/-- What a request for the lock of a row comes to. -/
inductive Acquired (t : LockTable) (known : List String) (q : LockRequest) :
    Except Fault AcquireOutcome × LockTable → Prop where
  | granted (t' : LockTable) (hwhole : t'.Whole known)
    (hhold : t'.hold? = Function.update t.hold? q.place (Lock.joined (t.hold? q.place) q.kind))
    (hkind : ∀ k n, t.hold? q.place = some (k, n) → k = q.kind)
    (hcached : t'.cached? = t.cached?) : Acquired t known q (.ok .granted, t')
  | denied (outcome : AcquireOutcome) (h : outcome ≠ .granted) (t' : LockTable)
    (hwhole : t'.Whole known) (hhold : t'.hold? = t.hold?) (hcached : t'.cached? = t.cached?) :
    Acquired t known q (.ok outcome, t')

/-- The views of a table in which one lock has changed. -/
theorem views_of_update {l : Lock} (h : t'.lockAt = Function.update t.lockAt p l) :
    t'.hold? = Function.update t.hold? p l.hold? ∧
      t'.cached? = Function.update t.cached? p l.version := by
  constructor
  · funext q
    rw [hold?, h, Function.update_apply, Function.update_apply]
    split
    · rfl
    · rfl
  · funext q
    rw [cached?, h, Function.update_apply, Function.update_apply]
    split
    · rfl
    · rfl

theorem acquire_inv (h : t.Whole known) {q : LockRequest} (hq : q.relation ∈ known)
    (requester : Nat) (d : Discipline) :
    t.Acquired known q (t.acquire q.relation q.key requester q.kind d) := by
  have hasked := (t.lockAt q.place).asked_acquireWithin requester q.kind d t.config.wait.retries
  generalize hy : (t.lockAt q.place).acquireWithin requester q.kind d t.config.wait.retries = y
    at hasked
  obtain ⟨outcome, l⟩ := y
  have hop : (LockOp.acquire requester q.kind d).on t.config.wait.retries (t.lockAt q.place) =
      (.ok (.acquired outcome), l) := by
    rw [LockOp.on, hy]
    rfl
  obtain ⟨hreply, hlocks⟩ := h.serve_eq (c := ⟨q.relation, q.key, _⟩) hq hop
  have hwhole := h.of_reaches (t.reaches_acquire q requester d)
  simp only [serve] at hreply hlocks
  generalize t.acquire q.relation q.key requester q.kind d = x at hreply hlocks hwhole
  obtain ⟨answer, t'⟩ := x
  obtain rfl : answer = .ok outcome := by
    cases answer with
    | error f => cases hreply
    | ok o =>
        cases hreply
        rfl
  obtain ⟨hhold, hcached⟩ := views_of_update hlocks
  simp only [Prod.map_apply, id_eq] at hasked
  cases hasked with
  | granted _ hjoined hkind hversion =>
      rw [hjoined] at hhold
      rw [hversion] at hcached
      exact .granted t' hwhole hhold hkind (hcached.trans (Function.update_eq_self _ _))
  | denied _ hne _ hsame hversion =>
      rw [hsame] at hhold
      rw [hversion] at hcached
      refine .denied outcome ?_ t' hwhole (hhold.trans (Function.update_eq_self _ _))
        (hcached.trans (Function.update_eq_self _ _))
      rintro rfl
      exact hne rfl

/-- The rows of a list are held beside those who held them in a table before, and by the same
kind of lock; the other rows are held as they were. -/
structure Beside (before t : LockTable) (held : LockPlan) : Prop where
  joined : ∀ q ∈ held, t.hold? q.place = Lock.joined (before.hold? q.place) q.kind
  kind : ∀ q ∈ held, ∀ k n, before.hold? q.place = some (k, n) → k = q.kind
  others : ∀ p, p ∉ held.places → t.hold? p = before.hold? p

theorem beside_nil (h : t.hold? = before.hold?) : before.Beside t [] where
  joined _ hq := absurd hq List.not_mem_nil
  kind _ hq := absurd hq List.not_mem_nil
  others p _ := congrFun h p

/-- It does not matter what else is seen of a table. -/
theorem Beside.congr {held : LockPlan} (h : before.Beside t held) (hhold : t'.hold? = t.hold?) :
    before.Beside t' held where
  joined q hq := by
    rw [hhold]
    exact h.joined q hq
  kind := h.kind
  others p hp := by
    rw [hhold]
    exact h.others p hp

/-- One more row is held. -/
theorem Beside.acquired {held : LockPlan} (h : before.Beside t held) {q : LockRequest}
    (hq : q.place ∉ held.places)
    (ht' : t'.hold? =
      Function.update t.hold? q.place (Lock.joined (t.hold? q.place) q.kind))
    (hkind : ∀ k n, t.hold? q.place = some (k, n) → k = q.kind) :
    before.Beside t' (held ++ [q]) where
  joined x hx := by
    rw [ht', Function.update_apply]
    rcases List.mem_append.1 hx with hx | hx
    · rw [if_neg (LockPlan.place_ne hq hx)]
      exact h.joined x hx
    · obtain rfl := List.mem_singleton.1 hx
      rw [if_pos rfl, h.others x.place hq]
  kind x hx := by
    rcases List.mem_append.1 hx with hx | hx
    · exact h.kind x hx
    · obtain rfl := List.mem_singleton.1 hx
      rw [← h.others x.place hq]
      exact hkind
  others p hp := by
    have hp' : p ∉ held.places ∧ p ≠ q.place := by
      simpa [LockPlan.places] using hp
    rw [ht', Function.update_apply, if_neg hp'.2]
    exact h.others p hp'.1

/-- A row less is held. -/
theorem Beside.released {q : LockRequest} {rest : LockPlan} (h : before.Beside t (q :: rest))
    (hq : q.place ∉ LockPlan.places rest)
    (ht' : t'.hold? = Function.update t.hold? q.place (before.hold? q.place)) :
    before.Beside t' rest where
  joined x hx := by
    rw [ht', Function.update_apply, if_neg (LockPlan.place_ne hq hx)]
    exact h.joined x (List.mem_cons_of_mem q hx)
  kind x hx := h.kind x (List.mem_cons_of_mem q hx)
  others p hp := by
    rw [ht', Function.update_apply]
    split
    · rename_i he
      rw [he]
    · rename_i hne
      apply h.others p
      simpa [LockPlan.places, hne] using hp

/-- Who joined the holders of a row and leaves it again leaves it as it was. -/
theorem left_joined {held : Option (LockKind × Nat)} {kind : LockKind}
    (hkind : ∀ k n, held = some (k, n) → k = kind) (hcounted : ∀ k n, held = some (k, n) → n ≠ 0) :
    (if held.elim 0 Prod.snd = 0 then none else some (kind, held.elim 0 Prod.snd)) = held := by
  cases held with
  | none => rfl
  | some x =>
      obtain ⟨k, n⟩ := x
      rw [Option.elim_some, if_neg (hcounted k n rfl), hkind k n rfl]

/-- The rows of a list are given back one after another, and those who held them before are left. -/
theorem releaseAll_beside (h : t.Fit known) (hcounted : ∀ p, (before.lockAt p).Counted)
    {held : LockPlan} (hbeside : before.Beside t held) (hnodup : held.places.Nodup)
    (advance : Bool) :
    ∃ t', t.releaseAll advance held = (.ok (), t') ∧ t'.Fit known ∧ t'.hold? = before.hold? ∧
      (advance = false → t'.cached? = t.cached?) := by
  induction held generalizing t with
  | nil =>
      refine ⟨t, rfl, h, ?_, fun _ => rfl⟩
      funext p
      exact hbeside.others p List.not_mem_nil
  | cons q rest ih =>
      obtain ⟨hq, hrest⟩ := List.nodup_cons.1 hnodup
      obtain ⟨v, t₁, hrelease, hfit, hhold, hcached⟩ :=
        release_of_hold? (p := q.place) h (hbeside.joined q List.mem_cons_self) advance
      have hback : t₁.hold? = Function.update t.hold? q.place (before.hold? q.place) := by
        rw [hhold, left_joined (hbeside.kind q List.mem_cons_self) (hcounted q.place)]
      obtain ⟨t', hall, hfit', hhold', hcached'⟩ := ih hfit (hbeside.released hq hback) hrest
      refine ⟨t', ?_, hfit', hhold', ?_⟩
      · rw [releaseAll, show t.release q.relation q.key q.kind advance = _ from hrelease]
        exact hall
      · intro hadvance
        rw [hcached' hadvance, hcached, released, hadvance]
        rfl

/-- The rows of a plan are all taken beside their holders, or there is one conflict and every row
is held as before. -/
theorem acquireAll_beside (h : t.Whole known) (hcounted : ∀ p, (before.lockAt p).Counted)
    {held plan : LockPlan} (hbeside : before.Beside t held)
    (hnodup : (LockPlan.places (held ++ plan)).Nodup) (hknown : ∀ q ∈ plan, q.relation ∈ known)
    (requester : Nat) (d : Discipline) :
    ∃ t', t'.Fit known ∧ t'.cached? = t.cached? ∧
      ((t.acquireAll requester d held plan = (.ok (held ++ plan, []), t') ∧
          before.Beside t' (held ++ plan)) ∨
        (∃ conflict, t.acquireAll requester d held plan = (.ok ([], [conflict]), t')) ∧
          t'.hold? = before.hold?) := by
  induction plan generalizing t held with
  | nil =>
      refine ⟨t, h.fit, rfl, .inl ⟨by simp [acquireAll], ?_⟩⟩
      simpa using hbeside
  | cons q rest ih =>
      have hsplit : held ++ q :: rest = held ++ [q] ++ rest := by simp
      have hparts := hnodup
      rw [LockPlan.places, List.map_append, List.nodup_append] at hparts
      have hq : q.place ∉ held.places := fun hmem => hparts.2.2 q.place hmem q.place (by simp) rfl
      have hacquired := acquire_inv h (hknown q List.mem_cons_self) requester d
      simp only [acquireAll]
      generalize t.acquire q.relation q.key requester q.kind d = x at hacquired
      cases hacquired with
      | granted t₁ hwhole hhold hkind hcached =>
          obtain ⟨t', hfit, hcached', hall⟩ := ih hwhole (hbeside.acquired hq hhold hkind)
            (hsplit ▸ hnodup) fun x hx => hknown x (List.mem_cons_of_mem q hx)
          rw [← hsplit] at hall
          exact ⟨t', hfit, hcached'.trans hcached, hall⟩
      | denied outcome hne t₁ hwhole hhold hcached =>
          -- what has been taken so far goes back before the conflict is reported
          obtain ⟨t', hback, hfit, hhold', hcached'⟩ :=
            releaseAll_beside hwhole.fit hcounted (hbeside.congr hhold) hparts.1 false
          obtain ⟨conflict, hconflict⟩ := q.exists_conflict hne
          refine ⟨t', hfit, (hcached' rfl).trans hcached, .inr ⟨⟨conflict, ?_⟩, hhold'⟩⟩
          simp only [hconflict, hback]

end LockTable

end LiveIsolation
