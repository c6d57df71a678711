import LiveIsolation.Proofs.LockTable.Views
import LiveIsolation.Validation
import LiveIsolation.Guard

/-!
# Locks of a commit

A commit takes the locks of its plan, validates, and gives all of them back. Where nobody else
holds a row this never fails, and afterwards nobody holds a row again. What remains of it are
the versions that have become known.

## Implementation notes

A validation asks the store only for rows whose version is not known. What it compares with is
therefore the known version or else the store's (`VersionsSeen`), and this does not change
while the validation goes on, although it makes versions known.
-/

namespace LiveIsolation

namespace LockRequest

def place (q : LockRequest) : Place := (q.relation, q.key)

theorem eq_iff {x q : LockRequest} : x = q ↔ x.place = q.place ∧ x.kind = q.kind := by
  obtain ⟨relation, key, kind⟩ := x
  obtain ⟨relation', key', kind'⟩ := q
  simp [place, and_assoc]

end LockRequest

namespace LockPlan

/-- The rows of a plan, each once if the plan is in order. -/
def places (plan : LockPlan) : List Place := plan.map LockRequest.place

/-- The plan asks for a row with an exclusive lock. -/
def writes (plan : LockPlan) (p : Place) : Bool :=
  plan.any fun q => q.place == p && q.kind == .exclusive

theorem writes_eq_true {plan : LockPlan} {p : Place} :
    plan.writes p = true ↔ ∃ q ∈ plan, q.place = p ∧ q.kind = .exclusive := by
  simp [writes]

theorem writes_of_notMem {plan : LockPlan} {p : Place} (h : p ∉ plan.places) :
    plan.writes p = false := by
  rw [Bool.eq_false_iff]
  intro hw
  obtain ⟨q, hq, rfl, -⟩ := writes_eq_true.1 hw
  exact h (List.mem_map_of_mem hq)

end LockPlan

namespace LockTable

variable {t : LockTable} {known : List String}

/-- The rows of a plan are held as it asks for, and no other row is. -/
structure HeldBy (t : LockTable) (plan : LockPlan) : Prop where
  held : ∀ q ∈ plan, t.hold? q.place = some (q.kind, 1)
  free : ∀ p, p ∉ plan.places → t.hold? p = none

theorem Free.heldBy_nil (h : t.Free) : t.HeldBy [] where
  held _ hq := absurd hq List.not_mem_nil
  free p _ := h p

theorem HeldBy.free_of_nil (h : t.HeldBy []) : t.Free := fun p => h.free p List.not_mem_nil

/-- One more row is held. -/
theorem HeldBy.acquired {t' : LockTable} {held : LockPlan} (h : t.HeldBy held) {q : LockRequest}
    (hq : q.place ∉ held.places)
    (ht' : t'.hold? = Function.update t.hold? q.place (some (q.kind, 1))) :
    t'.HeldBy (held ++ [q]) where
  held x hx := by
    rw [ht', Function.update_apply]
    rcases List.mem_append.1 hx with hx | hx
    · have hne : x.place ≠ q.place := by
        rintro he
        exact hq (he ▸ List.mem_map_of_mem hx)
      rw [if_neg hne]
      exact h.held x hx
    · rw [List.mem_singleton.1 hx, if_pos rfl]
  free p hp := by
    have hp' : p ∉ held.places ∧ p ≠ q.place := by
      simpa [LockPlan.places] using hp
    rw [ht', Function.update_apply, if_neg hp'.2]
    exact h.free p hp'.1

/-- A row less is held. -/
theorem HeldBy.released {t' : LockTable} {q : LockRequest} {rest : LockPlan}
    (h : t.HeldBy (q :: rest)) (hq : q.place ∉ LockPlan.places rest)
    (ht' : t'.hold? = Function.update t.hold? q.place none) : t'.HeldBy rest where
  held x hx := by
    have hne : x.place ≠ q.place := by
      rintro he
      exact hq (he ▸ List.mem_map_of_mem hx)
    rw [ht', Function.update_apply, if_neg hne]
    exact h.held x (List.mem_cons_of_mem q hx)
  free p hp := by
    rw [ht', Function.update_apply]
    split
    · rfl
    · rename_i hne
      apply h.free p
      simpa [LockPlan.places, hne] using hp

/-- The rows of a plan are taken one after another, beside those that are held. -/
theorem acquireAll_heldBy (h : t.Fit known) {held plan : LockPlan} (hheld : t.HeldBy held)
    (hnodup : (LockPlan.places (held ++ plan)).Nodup) (hknown : ∀ q ∈ plan, q.relation ∈ known)
    (requester : Nat) (d : Discipline) :
    ∃ t', t.acquireAll requester d held plan = (.ok (held ++ plan, []), t') ∧ t'.Fit known ∧
      t'.HeldBy (held ++ plan) ∧ t'.cached? = t.cached? := by
  induction plan generalizing t held with
  | nil => exact ⟨t, by simp [acquireAll], h, by simpa using hheld, rfl⟩
  | cons q rest ih =>
      have hsplit : held ++ q :: rest = held ++ [q] ++ rest := by simp
      have hq : q.place ∉ held.places := by
        intro hmem
        rw [LockPlan.places, List.map_append, List.nodup_append] at hnodup
        exact hnodup.2.2 q.place hmem q.place (by simp) rfl
      obtain ⟨t₁, hacquire, hfit, hhold, hcached⟩ :=
        acquire_free (p := q.place) h (hknown q List.mem_cons_self) (hheld.free _ hq) requester
          q.kind d
      obtain ⟨t', hall, hfit', hheld', hcached'⟩ :=
        ih hfit (hheld.acquired hq hhold) (hsplit ▸ hnodup)
          fun x hx => hknown x (List.mem_cons_of_mem q hx)
      refine ⟨t', ?_, hfit', hsplit ▸ hheld', hcached'.trans hcached⟩
      rw [acquireAll, show t.acquire q.relation q.key requester q.kind d = _ from hacquire, hsplit]
      exact hall

/-- The rows of a plan are given back one after another. -/
theorem releaseAll_heldBy (h : t.Fit known) {plan : LockPlan} (hheld : t.HeldBy plan)
    (hnodup : plan.places.Nodup) (advance : Bool) :
    ∃ t', t.releaseAll advance plan = (.ok (), t') ∧ t'.Fit known ∧ t'.Free ∧
      ∀ p, t'.cached? p =
        if advance && plan.writes p then (t.cached? p).map (· + 1) else t.cached? p := by
  induction plan generalizing t with
  | nil => exact ⟨t, rfl, h, hheld.free_of_nil, fun p => by simp [LockPlan.writes]⟩
  | cons q rest ih =>
      obtain ⟨hq, hrest⟩ := List.nodup_cons.1 hnodup
      obtain ⟨v, t₁, hrelease, hfit, hhold, hcached⟩ :=
        release_of_hold? (p := q.place) (n := 0) h (hheld.held q List.mem_cons_self) advance
      obtain ⟨t', hall, hfit', hfree, hcached'⟩ := ih hfit (hheld.released hq hhold) hrest
      refine ⟨t', ?_, hfit', hfree, ?_⟩
      · rw [releaseAll, show t.release q.relation q.key q.kind advance = _ from hrelease]
        exact hall
      · intro p
        have hcons : LockPlan.writes (q :: rest) p =
            (q.place == p && q.kind == .exclusive || LockPlan.writes rest p) := List.any_cons
        rw [hcached' p, hcached, LockTable.released, hcons]
        by_cases hp : p = q.place
        · subst hp
          have hnone : LockPlan.writes rest q.place = false := LockPlan.writes_of_notMem hq
          cases hk : q.kind <;> cases advance <;> simp [hnone]
        · have hne : (q.place == p) = false := by simpa using fun he => hp he.symm
          cases hk : q.kind <;> cases advance <;> simp [hne, hp]

section Validate
variable {fetch : VersionSource} {cur : Place → Option Nat}

/-- The version that a validation compares with: the known one, or else the store's. -/
def seen? (t : LockTable) (cur : Place → Option Nat) (p : Place) : Option Nat :=
  (t.cached? p).or (cur p)

/-- The store answers with the versions `cur` whenever it answers. -/
def Answers (fetch : VersionSource) (cur : Place → Option Nat) : Prop :=
  ∀ relation key v, fetch relation key = .ok v → v = cur (relation, key)

/-- A list of obligations holds up: no row that it observed has another version now. -/
def HoldsUp (os : List Obligation) (now : Place → Option Nat) : Prop :=
  ∀ o ∈ os, ∀ v, o.observed = some v → ∀ c, now o.place = some c → c = v

/-- What is learned after something has been learned was there to be learned before. -/
theorem learns_trans {first second third cur : Place → Option Nat}
    (h : ∀ p, second p = first p ∨ (first p = none ∧ second p = cur p))
    (h' : ∀ p, third p = second p ∨ (second p = none ∧ third p = cur p)) (p : Place) :
    third p = first p ∨ (first p = none ∧ third p = cur p) := by
  rcases h' p with h₂ | ⟨hnone, h₂⟩
  · rw [h₂]
    exact h p
  · rcases h p with h₁ | ⟨hnone', -⟩
    · exact .inr ⟨h₁ ▸ hnone, h₂⟩
    · exact .inr ⟨hnone', h₂⟩

/-- Versions have become known, and nothing else has changed. -/
structure Learned (t t' : LockTable) (known : List String) (cur : Place → Option Nat) : Prop where
  fit : t'.Fit known
  hold : t'.hold? = t.hold?
  cached : ∀ p, t'.cached? p = t.cached? p ∨ (t.cached? p = none ∧ t'.cached? p = cur p)

theorem Learned.refl (h : t.Fit known) : t.Learned t known cur := ⟨h, rfl, fun _ => .inl rfl⟩

theorem Learned.trans {t' t'' : LockTable} (h : t.Learned t' known cur)
    (h' : t'.Learned t'' known cur) : t.Learned t'' known cur where
  fit := h'.fit
  hold := h'.hold.trans h.hold
  cached := learns_trans h.cached h'.cached

/-- What becomes known is what a validation would have asked for. -/
theorem Learned.seen?_eq {t' : LockTable} (h : t.Learned t' known cur) :
    t'.seen? cur = t.seen? cur := by
  funext p
  simp only [seen?]
  rcases h.cached p with h | ⟨hnone, h⟩
  · rw [h]
  · rw [h, hnone]
    cases cur p <;> rfl

theorem currentVersion_learned (h : t.Fit known) (hfetch : Answers fetch cur) {p : Place}
    (hp : p.1 ∈ known) :
    ∃ answer asked t', t.currentVersion p.1 p.2 (fetch p.1 p.2) = (⟨answer, asked⟩, t') ∧
      t.Learned t' known cur ∧ (∀ v, answer = .ok v → v = t.seen? cur p) ∧
      (∀ f, answer = .error f → fetch p.1 p.2 = .error f) := by
  obtain ⟨answer, t', hcurrent, hfit, hhold, hanswer, hcached⟩ :=
    currentVersion_eq h hp (fetch p.1 p.2)
  refine ⟨answer, _, t', hcurrent, ⟨hfit, hhold, ?_⟩, ?_, ?_⟩
  · intro q
    cases answer with
    | error f => exact .inl (congrFun hcached q)
    | ok v =>
        have hupdate : t'.cached? = Function.update t.cached? p v := hcached
        rw [hupdate, Function.update_apply]
        split
        · rename_i hq
          subst hq
          cases hc : t.cached? q with
          | some w =>
              rw [hc] at hanswer
              exact .inl (Except.ok.inj hanswer)
          | none =>
              rw [hc] at hanswer
              exact .inr ⟨rfl, hfetch q.1 q.2 v hanswer.symm⟩
        · exact .inl rfl
  · rintro v rfl
    simp only [seen?]
    cases hc : t.cached? p with
    | some w =>
        rw [hc] at hanswer
        exact Except.ok.inj hanswer
    | none =>
        rw [hc] at hanswer
        exact hfetch p.1 p.2 v hanswer.symm
  · rintro f rfl
    cases hc : t.cached? p with
    | some w =>
        rw [hc] at hanswer
        cases hanswer
    | none =>
        rw [hc] at hanswer
        exact hanswer.symm

/-- An obligation that observed nothing holds up. -/
theorem holdsUp_cons_none {o : Obligation} {os : List Obligation} {now : Place → Option Nat}
    (ho : o.observed = none) : HoldsUp (o :: os) now ↔ HoldsUp os now := by
  simp only [HoldsUp]
  rw [List.forall_mem_cons, and_iff_right]
  intro v hv
  rw [ho] at hv
  cases hv

/-- An obligation holds up if no staleness is found. -/
theorem holdsUp_cons_some {o : Obligation} {os : List Obligation} {now : Place → Option Nat}
    {v : Nat} (ho : o.observed = some v) :
    HoldsUp (o :: os) now ↔ staleness o v (now o.place) = [] ∧ HoldsUp os now := by
  simp only [HoldsUp]
  rw [List.forall_mem_cons]
  refine and_congr_left fun _ => ?_
  simp only [staleness]
  cases now o.place with
  | none => simp
  | some c => simp [ho]

end Validate

end LockTable

end LiveIsolation
