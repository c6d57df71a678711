import LiveIsolation.Proofs.LockTable.Holders
import LiveIsolation.Proofs.LockTable.Words

/-!
# Guards that give everything back

A plan may ask for a row twice, with both kinds, or for a relation that is not there, and others
may hold rows all the while. A guard then holds each request of its plan once, or it holds nothing
and every row is as before. What a guard holds is counted (`List.count`): it takes from the
holders of a lock as many as it has added, and so it does not matter whom the others are.

Holders are counted and versions kept in words. Where these have room for the plan
(`LockTable.HolderRoom`, `LockTable.VersionRoom`), no number leaves its word while the guard takes
its locks and gives them back.
-/

namespace LiveIsolation

/-- A row is asked for as often as it is asked for with either kind. -/
theorem LockPlan.countP_place (plan : LockPlan) (p : Place) :
    plan.countP (·.place = p) =
      plan.count ⟨p.1, p.2, .shared⟩ + plan.count ⟨p.1, p.2, .exclusive⟩ := by
  induction plan with
  | nil => rfl
  | cons q rest ih =>
      obtain ⟨relation, key, kind⟩ := q
      rw [List.countP_cons, ih, List.count_cons, List.count_cons]
      by_cases hp : (relation, key) = p
      · subst hp
        cases kind <;> simp [LockRequest.place] <;> omega
      · have hne : ∀ kind', (⟨relation, key, kind⟩ : LockRequest) ≠ ⟨p.1, p.2, kind'⟩ := by
          rintro kind' he
          exact hp (by cases he; rfl)
        simp [LockRequest.place, hp, hne]

namespace LockTable

variable {t t' t₁ t₂ before : LockTable} {known : List String} {requester : Nat} {d : Discipline}
  {plan held : LockPlan}

/-- Every row has the same kind of holders, and as many of them. -/
def HeldAlike (t t' : LockTable) : Prop :=
  ∀ p, (t'.lockAt p).holder = (t.lockAt p).holder ∧ (t'.lockAt p).count = (t.lockAt p).count

/-- The words for the holders can count those of a plan too. -/
def HolderRoom (t : LockTable) (plan : LockPlan) : Prop :=
  ∀ p, (t.lockAt p).count + plan.countP (·.place = p) < UInt32.size

/-- The words for the versions can keep those that a plan advances. -/
def VersionRoom (t : LockTable) (plan : LockPlan) : Prop :=
  ∀ p v, t.cached? p = some v → v + plan.count ⟨p.1, p.2, .exclusive⟩ < UInt64.size

/-- The requests of a plan have been granted one after another, and all numbers have fitted their
words. -/
inductive Granting (requester : Nat) (d : Discipline) :
    LockTable → LockPlan → LockTable → Prop where
  | nil (t : LockTable) : Granting requester d t [] t
  | cons {t t₁ t₂ : LockTable} {q : LockRequest} {rest : LockPlan}
    (h : t.acquire q.relation q.key requester q.kind d = (.ok .granted, t₁)) (hfits : t₁.Fits)
    (hrest : Granting requester d t₁ rest t₂) : Granting requester d t (q :: rest) t₂

/-- However many holds of a list have been given back in order, all numbers fit their words. -/
def FitsReturning (t : LockTable) (advance : Bool) (held : LockPlan) : Prop :=
  ∀ n, (t.releaseAll advance (held.take n)).2.Fits

/-- A plan is held in one table beside those who held rows in another. -/
structure HoldsBeside (before t : LockTable) (plan : LockPlan) : Prop where
  /-- Each request counts once. -/
  count : ∀ p, (t.lockAt p).count = (before.lockAt p).count + plan.countP (·.place = p)
  /-- A row that was asked for is held as it was asked for. -/
  asked : ∀ q ∈ plan, (t.lockAt q.place).holder = some q.kind
  /-- A row that was held is held by the same kind. -/
  kept : ∀ p kind, (before.lockAt p).holder = some kind → (t.lockAt p).holder = some kind
  /-- All other rows are held as before. -/
  others : ∀ p, p ∉ plan.places → (t.lockAt p).holder = (before.lockAt p).holder
  version : t.cached? = before.cached?

/-- Whichever way a guard gives its locks back, it succeeds, and rows are held as they were
before the guard. Only a guard that has committed advances versions, where they are known. -/
structure GivesBack (before t : LockTable) (g : Guard) : Prop where
  committed : ∃ t', g.releaseCommitted t = (.ok (), t') ∧ before.HeldAlike t' ∧
    ∀ p, t'.cached? p = (t.cached? p).map (· + g.held.count ⟨p.1, p.2, .exclusive⟩)
  aborted : ∃ t', g.releaseAborted t = (.ok (), t') ∧ before.HeldAlike t' ∧
    t'.cached? = t.cached?
  dropped : ∃ t', g.drop t = (none, t') ∧ before.HeldAlike t' ∧ t'.cached? = t.cached?
  fits : ∀ advance, t.FitsReturning advance g.held

/-- What a guard for a plan comes to. -/
inductive Guarded (relations : List String) (t : LockTable) (plan : LockPlan) (requester : Nat)
    (d : Discipline) : Except Fault (Guard × List Conflict) × LockTable → Prop where
  /-- All is held, and can be given back at any later time. -/
  | whole (t' : LockTable) (hgranting : Granting requester d t plan t')
    (hholds : t.HoldsBeside t' plan)
    (hback : ∀ t₂, t'.Reaches t₂ → t'.HeldAlike t₂ → t₂.VersionRoom plan →
      t.GivesBack t₂ ⟨requester, plan⟩) :
    Guarded relations t plan requester d (.ok (⟨requester, plan⟩, []), t')
  /-- A request is not granted, and what has been taken before it is given back. -/
  | refused (taken : LockPlan) (q : LockRequest) (rest : LockPlan)
    (hplan : plan = taken ++ q :: rest) (t₁ t₂ : LockTable)
    (hgranting : Granting requester d t taken t₁) (outcome : AcquireOutcome)
    (houtcome : t₁.acquire q.relation q.key requester q.kind d = (.ok outcome, t₂))
    (hfits : t₂.FitsReturning false taken) (conflict : Conflict)
    (hconflict : q.conflict? outcome = some conflict) (t' : LockTable)
    (hheld : t.HeldAlike t') (hversion : t'.cached? = t.cached?) :
    Guarded relations t plan requester d (.ok (⟨requester, []⟩, [conflict]), t')
  /-- A request names no relation of the workload, and what has been taken before it is given
  back. -/
  | unknown (taken : LockPlan) (q : LockRequest) (rest : LockPlan)
    (hplan : plan = taken ++ q :: rest) (t₁ : LockTable)
    (hgranting : Granting requester d t taken t₁) (hunknown : q.relation ∉ relations)
    (hfits : t₁.FitsReturning false taken) (f : Fault) (hf : f = .unknownRelation q.relation)
    (hinternal : f.cls = .internal) (t' : LockTable) (hheld : t.HeldAlike t')
    (hversion : t'.cached? = t.cached?) :
    Guarded relations t plan requester d (.error f, t')

section Holders

theorem holders_eq (t : LockTable) (q : LockRequest) :
    t.holders q =
      if (t.lockAt q.place).holder = some q.kind then (t.lockAt q.place).count else 0 := by
  simp only [holders, hold?, Lock.hold?]
  cases (t.lockAt q.place).holder with
  | none => rfl
  | some kind => simp

theorem HeldAlike.holders_eq (h : t.HeldAlike t') : t'.holders = t.holders := by
  funext q
  rw [LockTable.holders_eq, LockTable.holders_eq, (h q.place).1, (h q.place).2]

/-- A row is held with a kind if it has holders of the kind. -/
theorem Whole.holder_eq_some (h : t.Whole known) {p : Place} {kind : LockKind} :
    (t.lockAt p).holder = some kind ↔ t.holders ⟨p.1, p.2, kind⟩ ≠ 0 := by
  rw [LockTable.holders_eq]
  change _ ↔ (if (t.lockAt p).holder = some kind then (t.lockAt p).count else 0) ≠ 0
  constructor
  · intro hholder
    rw [if_pos hholder]
    exact h.counted p kind _ (by rw [Lock.hold?, hholder]; rfl)
  · intro hne
    by_contra hholder
    exact hne (if_neg hholder)

/-- The holders of a row are those of either kind. -/
theorem Whole.count_eq (h : t.Whole known) (p : Place) :
    (t.lockAt p).count =
      t.holders ⟨p.1, p.2, .shared⟩ + t.holders ⟨p.1, p.2, .exclusive⟩ := by
  rw [LockTable.holders_eq, LockTable.holders_eq]
  change _ = (if (t.lockAt p).holder = some .shared then (t.lockAt p).count else 0) +
    (if (t.lockAt p).holder = some .exclusive then (t.lockAt p).count else 0)
  cases hholder : (t.lockAt p).holder with
  | none => simp [((h.consistent p).free hholder).1]
  | some kind => cases kind <;> simp

theorem Whole.heldAlike (h : t.Whole known) (h' : t'.Whole known)
    (hholders : t'.holders = t.holders) : t.HeldAlike t' := by
  intro p
  constructor
  · ext kind
    rw [h'.holder_eq_some, h.holder_eq_some, hholders]
  · rw [h'.count_eq, h.count_eq, hholders]

theorem Whole.holdsBeside (h : before.Whole known) (h' : t.Whole known)
    (hholders : ∀ x, t.holders x = before.holders x + plan.count x)
    (hcached : t.cached? = before.cached?) : before.HoldsBeside t plan where
  count p := by
    rw [h'.count_eq, h.count_eq, hholders, hholders, LockPlan.countP_place]
    omega
  asked q hq := by
    have hcount : plan.count q ≠ 0 := (List.count_pos_iff.2 hq).ne'
    rw [h'.holder_eq_some]
    change t.holders q ≠ 0
    rw [hholders]
    omega
  kept p kind hkind := by
    rw [h.holder_eq_some] at hkind
    rw [h'.holder_eq_some, hholders]
    omega
  others p hp := by
    ext kind
    have hcount : plan.count ⟨p.1, p.2, kind⟩ = 0 :=
      List.count_eq_zero.2 fun hmem => hp (List.mem_map_of_mem hmem)
    rw [h'.holder_eq_some, h.holder_eq_some, hholders, hcount, Nat.add_zero]
  version := hcached

end Holders

section GiveBack

/-- The known versions after the holds of a list have been given back. -/
def advanced (cached : Place → Option Nat) (held : LockPlan) (advance : Bool) (p : Place) :
    Option Nat :=
  if advance then (cached p).map (· + held.count ⟨p.1, p.2, .exclusive⟩) else cached p

theorem advanced_cons (cached : Place → Option Nat) (q : LockRequest) (rest : LockPlan)
    (advance : Bool) :
    advanced (released cached q.place q.kind advance) rest advance =
      advanced cached (q :: rest) advance := by
  funext p
  cases advance with
  | false => rfl
  | true =>
      obtain ⟨relation, key, kind⟩ := q
      simp only [advanced, released, Bool.true_and, if_true, List.count_cons, LockRequest.place]
      by_cases hp : p = (relation, key)
      · subst hp
        cases kind with
        | shared => simp
        | exclusive =>
            cases cached (relation, key) with
            | none => simp
            | some v => simp [Nat.add_assoc, Nat.add_comm]
      · have hne : ((⟨relation, key, kind⟩ : LockRequest) == ⟨p.1, p.2, .exclusive⟩) = false := by
          rw [beq_eq_false_iff_ne]
          rintro he
          cases he
          exact hp rfl
        cases kind with
        | shared => simp [hne]
        | exclusive => simp [hne, Function.update_of_ne hp]

theorem le_advanced {cached : Place → Option Nat} {advance : Bool} {p : Place} {v : Nat}
    (h : advanced cached held advance p = some v) :
    ∃ w, cached p = some w ∧ v ≤ w + held.count ⟨p.1, p.2, .exclusive⟩ := by
  cases advance with
  | false => exact ⟨v, h, Nat.le_add_right _ _⟩
  | true =>
      obtain ⟨w, hw, rfl⟩ := Option.map_eq_some_iff.1 h
      exact ⟨w, hw, le_rfl⟩

/-- Holds that are there are given back, and the other holders are left. -/
theorem releaseAll_counted (h : t.Whole known) {base : LockRequest → Nat}
    (hholders : ∀ x, t.holders x = base x + held.count x) (advance : Bool) :
    ∃ t', t.releaseAll advance held = (.ok (), t') ∧ t'.Whole known ∧ t'.holders = base ∧
      t'.cached? = advanced t.cached? held advance := by
  induction held generalizing t with
  | nil =>
      refine ⟨t, rfl, h, funext hholders, ?_⟩
      funext p
      cases advance <;> simp [advanced]
  | cons q rest ih =>
      have hheld : t.holders q ≠ 0 := by
        rw [hholders, List.count_cons_self]
        omega
      obtain ⟨n, hn⟩ := hold?_of_holders hheld
      obtain ⟨v, t₁, hrelease, -, hhold, hcached⟩ := release_of_hold? h.fit hn advance
      have hrelease' : t.release q.relation q.key q.kind advance = (.ok v, t₁) := hrelease
      have hwhole : t₁.Whole known := by
        have hreaches := t.reaches_release q advance
        rw [hrelease'] at hreaches
        exact h.of_reaches hreaches
      have hleft : ∀ x, t₁.holders x = base x + rest.count x := by
        intro x
        have hx := holders_of_left hn hhold x
        rw [hholders, List.count_cons] at hx
        simp only [beq_iff_eq, eq_comm (a := q)] at hx
        omega
      obtain ⟨t', hall, hwhole', hbase, hcached'⟩ := ih hwhole hleft
      refine ⟨t', ?_, hwhole', hbase, ?_⟩
      · rw [releaseAll, hrelease']
        exact hall
      · rw [hcached', hcached, advanced_cons]

/-- Rows have at most the holders that they had, and versions at most go up as often as there is
room for. So all numbers fit while holds are given back. -/
theorem Whole.fitsReturning (h : t.Whole known) {base : LockRequest → Nat}
    (hholders : ∀ x, t.holders x = base x + held.count x)
    (hcounts : ∀ p, (t.lockAt p).count < UInt32.size) (hversions : t.VersionRoom held)
    (advance : Bool) : t.FitsReturning advance held := by
  intro n
  have hsplit : ∀ x, held.count x = (held.drop n).count x + (held.take n).count x := by
    intro x
    rw [Nat.add_comm, ← List.count_append, List.take_append_drop]
  have hstill : ∀ x, t.holders x = base x + (held.drop n).count x + (held.take n).count x := by
    intro x
    rw [hholders, hsplit, Nat.add_assoc]
  obtain ⟨t', hback, hwhole, hleft, hcached⟩ := releaseAll_counted h hstill advance
  rw [hback]
  have hfewer : ∀ x, t'.holders x ≤ t.holders x := by
    intro x
    rw [hleft, hholders, hsplit]
    dsimp only
    omega
  refine fun p => ⟨?_, fun v hv => ?_⟩
  · calc (t'.lockAt p).count
        = t'.holders ⟨p.1, p.2, .shared⟩ + t'.holders ⟨p.1, p.2, .exclusive⟩ := hwhole.count_eq p
      _ ≤ t.holders ⟨p.1, p.2, .shared⟩ + t.holders ⟨p.1, p.2, .exclusive⟩ :=
          Nat.add_le_add (hfewer _) (hfewer _)
      _ = (t.lockAt p).count := (h.count_eq p).symm
      _ < UInt32.size := hcounts p
  · have hknown : advanced t.cached? (held.take n) advance p = some v := by
      rw [← hcached]
      exact hv
    obtain ⟨w, hw, hle⟩ := le_advanced hknown
    have hroom := hversions p w hw
    rw [hsplit] at hroom
    omega

theorem Whole.givesBack (h : before.Whole known) (h' : t.Whole known)
    (hholders : ∀ x, t.holders x = before.holders x + plan.count x)
    (hcounts : ∀ p, (t.lockAt p).count < UInt32.size) (hversions : t.VersionRoom plan) :
    before.GivesBack t ⟨requester, plan⟩ := by
  have hback : ∀ advance, ∃ t', t.releaseAll advance plan = (.ok (), t') ∧ before.HeldAlike t' ∧
      t'.cached? = advanced t.cached? plan advance := by
    intro advance
    obtain ⟨t', hall, hwhole, hbase, hcached⟩ := releaseAll_counted h' hholders advance
    exact ⟨t', hall, h.heldAlike hwhole hbase, hcached⟩
  obtain ⟨t₁, hcommitted, hheld₁, hcached₁⟩ := hback true
  obtain ⟨t₂, haborted, hheld₂, hcached₂⟩ := hback false
  refine ⟨⟨t₁, hcommitted, hheld₁, fun p => congrFun hcached₁ p⟩, ⟨t₂, haborted, hheld₂, hcached₂⟩,
    ?_, h'.fitsReturning hholders hcounts hversions⟩
  by_cases hnone : plan = []
  · subst hnone
    obtain rfl : t = t₂ := congrArg Prod.snd haborted
    exact ⟨t, by simp [Guard.drop], hheld₂, rfl⟩
  · refine ⟨t₂, ?_, hheld₂, hcached₂⟩
    simp only [Guard.drop, if_neg hnone]
    rw [show Guard.releaseAborted ⟨requester, plan⟩ t = _ from haborted]

end GiveBack

section Acquire

theorem Granting.concat {q : LockRequest} (h : Granting requester d t plan t')
    (hq : t'.acquire q.relation q.key requester q.kind d = (.ok .granted, t₂))
    (hfits : t₂.Fits) : Granting requester d t (plan ++ [q]) t₂ := by
  induction h with
  | nil t => exact .cons hq hfits (.nil t₂)
  | cons hfirst hfits₁ _ ih => exact .cons hfirst hfits₁ (ih hq)

/-- Where a plan has room, each lock counts the holders of before and those that are held of the
plan, and that fits its word. -/
theorem Whole.count_lt (hbefore : before.Whole known) (h : t.Whole known)
    (hholders : ∀ x, t.holders x = before.holders x + held.count x)
    (hroom : before.HolderRoom plan) (hinitial : held <+: plan) (p : Place) :
    (t.lockAt p).count < UInt32.size := by
  have hfewer : held.countP (·.place = p) ≤ plan.countP (·.place = p) :=
    hinitial.sublist.countP_le
  have hcount := hroom p
  rw [LockPlan.countP_place] at hfewer
  rw [hbefore.count_eq] at hcount
  rw [h.count_eq, hholders, hholders]
  omega

/-- A version that is kept fits its word, also if it is advanced less often than there is room
for. -/
theorem VersionRoom.of_initial (h : before.VersionRoom plan) (hcached : t.cached? = before.cached?)
    (hinitial : held <+: plan) : t.VersionRoom held := by
  intro p v hv
  rw [hcached] at hv
  exact Nat.lt_of_le_of_lt (Nat.add_le_add_left (hinitial.sublist.count_le _) v) (h p v hv)

theorem VersionRoom.fits (h : t.VersionRoom plan)
    (hcounts : ∀ p, (t.lockAt p).count < UInt32.size) : t.Fits :=
  fun p => ⟨hcounts p, fun v hv => Nat.lt_of_le_of_lt (Nat.le_add_right _ _) (h p v hv)⟩

theorem acquire_unknown {q : LockRequest} (hr : t.find? q.relation = none) :
    t.acquire q.relation q.key requester q.kind d = (.error (.unknownRelation q.relation), t) := by
  simp only [acquire, within, hr]

/-- The first requests of a plan are held beside what was held before. The holders of each lock are
those of before and the requests that are held. -/
structure Taken (known : List String) (before : LockTable) (plan held : LockPlan) (t : LockTable) :
    Prop where
  initial : held <+: plan
  whole : t.Whole known
  holders : ∀ x, t.holders x = before.holders x + held.count x
  cached : t.cached? = before.cached?

/-- A lock has been looked at, and nobody has joined or left it. -/
theorem Taken.congr (h : Taken known before plan held t) (hwhole : t₁.Whole known)
    (hhold : t₁.hold? = t.hold?) (hcached : t₁.cached? = t.cached?) :
    Taken known before plan held t₁ where
  initial := h.initial
  whole := hwhole
  holders x := holders_congr hhold ▸ h.holders x
  cached := hcached.trans h.cached

/-- One more request has been granted. -/
theorem Taken.concat {q : LockRequest} {rest : LockPlan} (h : Taken known before plan held t)
    (hplan : plan = held ++ q :: rest) (hwhole : t₁.Whole known)
    (hhold : t₁.hold? = Function.update t.hold? q.place (Lock.joined (t.hold? q.place) q.kind))
    (hkind : ∀ k n, t.hold? q.place = some (k, n) → k = q.kind)
    (hcached : t₁.cached? = t.cached?) : Taken known before plan (held ++ [q]) t₁ where
  initial := ⟨rest, by rw [hplan, List.append_assoc, List.singleton_append]⟩
  whole := hwhole
  holders x := by
    rw [holders_of_joined hhold hkind x, h.holders, List.count_append, List.count_singleton]
    simp only [beq_iff_eq, eq_comm (a := q)]
    omega
  cached := hcached.trans h.cached

section Room
variable (hbefore : before.Whole known) (hroom : before.HolderRoom plan)
  (hversions : before.VersionRoom plan)
include hbefore hroom hversions

theorem Taken.fits (h : Taken known before plan held t) : t.Fits :=
  (hversions.of_initial h.cached h.initial).fits
    (hbefore.count_lt h.whole h.holders hroom h.initial)

theorem Taken.fitsReturning (h : Taken known before plan held t) : t.FitsReturning false held :=
  h.whole.fitsReturning h.holders (hbefore.count_lt h.whole h.holders hroom h.initial)
    (hversions.of_initial h.cached h.initial) false

/-- Holds that are given back early leave every row as it was. -/
theorem Taken.restored (h : Taken known before plan held t) :
    ∃ t', t.releaseAll false held = (.ok (), t') ∧ t.FitsReturning false held ∧
      before.HeldAlike t' ∧ t'.cached? = before.cached? := by
  obtain ⟨t', hback, hwhole, hbase, hcached⟩ := releaseAll_counted h.whole h.holders false
  exact ⟨t', hback, h.fitsReturning hbefore hroom hversions, hbefore.heldAlike hwhole hbase,
    hcached.trans h.cached⟩

/-- The requests of a plan are taken after those that are held already. -/
theorem Taken.acquireAll (h : Taken known before plan held t) {rest : LockPlan}
    (hplan : plan = held ++ rest) (hgranting : Granting requester d before held t) :
    Guarded known before plan requester d
      ((t.acquireAll requester d held rest).map (.map fun x => (⟨requester, x.1⟩, x.2)) id) := by
  induction rest generalizing t held with
  | nil =>
      rw [List.append_nil] at hplan
      subst hplan
      refine .whole t hgranting (hbefore.holdsBeside h.whole h.holders h.cached) ?_
      intro t₂ hreaches halike hversions₂
      have hwhole₂ := h.whole.of_reaches hreaches
      have hholders₂ : ∀ x, t₂.holders x = before.holders x + plan.count x :=
        fun x => halike.holders_eq ▸ h.holders x
      exact hbefore.givesBack hwhole₂ hholders₂
        (hbefore.count_lt hwhole₂ hholders₂ hroom List.prefix_rfl) hversions₂
  | cons q rest ih =>
      cases hr : t.find? q.relation with
      | none =>
          obtain ⟨t', hback, hfits, hheld, hversion⟩ := h.restored hbefore hroom hversions
          have hunknown : q.relation ∉ known := by
            intro hmem
            obtain ⟨r, hr'⟩ := h.whole.knows q.relation hmem
            rw [hr] at hr'
            cases hr'
          simp only [LockTable.acquireAll, acquire_unknown hr, hback]
          exact .unknown held q rest hplan t hgranting hunknown hfits _ rfl rfl t' hheld hversion
      | some r =>
          have hacquired := acquire_inv (h.whole.single hr) List.mem_cons_self requester d
          have hreaches := t.reaches_acquire q requester d
          simp only [LockTable.acquireAll]
          cases hx : t.acquire q.relation q.key requester q.kind d with
          | mk answer t₁ =>
              rw [hx] at hacquired hreaches
              have hwhole₁ := h.whole.of_reaches hreaches
              cases hacquired with
              | granted _ _ hhold hkind hsame =>
                  have h₁ := h.concat hplan hwhole₁ hhold hkind hsame
                  have hplan₁ : plan = (held ++ [q]) ++ rest := by
                    rw [hplan, List.append_assoc, List.singleton_append]
                  exact ih h₁ hplan₁ (hgranting.concat hx (h₁.fits hbefore hroom hversions))
              | denied outcome hne _ _ hhold hsame =>
                  -- what has been taken so far goes back before the conflict is reported
                  obtain ⟨t', hback, hfits, hheld, hversion⟩ :=
                    (h.congr hwhole₁ hhold hsame).restored hbefore hroom hversions
                  obtain ⟨conflict, hconflict⟩ := q.exists_conflict hne
                  simp only [hconflict, hback]
                  exact .refused held q rest hplan t t₁ hgranting outcome hx hfits conflict
                    hconflict t' hheld hversion

end Room

/-- Another requester holds the row 1, and a version is known for the row 2. -/
def heldByOther : List LockCall :=
  [⟨"x", 1, .acquire 9 .shared .snapshot⟩, ⟨"x", 2, .updateVersion 5⟩]

/-- The table after that. -/
def besideOther : LockTable :=
  (LockCall.serveAll LockTable.serve ⟨{}, [("x", {})]⟩ heldByOther).2

/-- The row 2 is asked for twice, and the row 1 beside its holder. -/
def twiceTwo : LockPlan := [⟨"x", 2, .exclusive⟩, ⟨"x", 1, .shared⟩, ⟨"x", 2, .exclusive⟩]

/-- Small numbers have room for a small plan. -/
theorem room_of_small {n : Nat} (hn : 2 * n < UInt32.size)
    (hsmall : ∀ x ∈ t.relations, ∀ y ∈ x.2.entries, y.2.count ≤ n ∧ ∀ v ∈ y.2.version, v ≤ n)
    (hplan : plan.length ≤ n) : t.HolderRoom plan ∧ t.VersionRoom plan := by
  have hlocks : ∀ p, (t.lockAt p).count ≤ n ∧ ∀ v ∈ (t.lockAt p).version, v ≤ n :=
    forall_lockAt (P := fun l => l.count ≤ n ∧ ∀ v ∈ l.version, v ≤ n)
      ⟨Nat.zero_le n, nofun⟩ hsmall
  refine ⟨fun p => ?_, fun p v hv => ?_⟩
  · have hcount := (hlocks p).1
    have hrequests : plan.countP (·.place = p) ≤ plan.length := List.countP_le_length
    omega
  · have hversion := (hlocks p).2 v hv
    have hrequests := plan.count_le_length (a := ⟨p.1, p.2, .exclusive⟩)
    have hwords : UInt32.size ≤ UInt64.size := by decide
    omega

end Acquire

end LockTable

end LiveIsolation
