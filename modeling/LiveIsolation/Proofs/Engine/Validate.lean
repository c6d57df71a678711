import LiveIsolation.Proofs.Engine.Commit
import LiveIsolation.Proofs.Obligation

/-!
# Locks and versions around a commit

Where nobody holds a row, a transaction gets all locks of its plan, and validation turns it
away exactly if one of its obligations does not hold up. Whatever the commit comes to, nobody
holds a row afterwards. What has become of the known versions is read off the obligations and
the written rows.
-/

namespace LiveIsolation

/-- A known version after versions of its row have been reported. -/
def raisedAll (known : Option Nat) (written : List (Place × Nat)) (p : Place) : Option Nat :=
  written.foldl (fun v x => if x.1 = p then Lock.raised v x.2 else v) known

section Raised

variable {known : Option Nat} {written : List (Place × Nat)} {p : Place}

theorem raisedAll_cons (x : Place × Nat) :
    raisedAll known (x :: written) p =
      raisedAll (if x.1 = p then Lock.raised known x.2 else known) written p := rfl

/-- Of two versions, one is known afterwards. -/
theorem mem_raised {v w : Nat} (h : Lock.raised known v = some w) : w = v ∨ known = some w := by
  cases known with
  | none =>
      cases h
      exact .inl rfl
  | some k =>
      have hw : max v k = w := Option.some.inj h
      rw [Option.some.injEq]
      omega

/-- A version that is known in the end was known before or has been reported. -/
theorem mem_raisedAll {v : Nat} (h : raisedAll known written p = some v) :
    known = some v ∨ (p, v) ∈ written := by
  induction written generalizing known with
  | nil => exact .inl h
  | cons x rest ih =>
      rw [raisedAll_cons] at h
      rcases ih h with hk | hmem
      · split at hk
        · rename_i hx
          rcases mem_raised hk with rfl | hk
          · exact .inr (hx ▸ List.mem_cons_self)
          · exact .inl hk
        · exact .inl hk
      · exact .inr (List.mem_cons_of_mem x hmem)

/-- A known version stays, or a later one of those reported is known in the end. -/
theorem raisedAll_cases (known : Option Nat) (written : List (Place × Nat)) (p : Place) :
    raisedAll known written p = known ∨ ∃ v, (p, v) ∈ written ∧
      raisedAll known written p = some v ∧ ∀ k, known = some k → k < v := by
  induction written generalizing known with
  | nil => exact .inl rfl
  | cons x rest ih =>
      rw [raisedAll_cons]
      split
      · rename_i hx
        have hmem : (p, x.2) ∈ x :: rest := hx ▸ List.mem_cons_self
        rcases ih (Lock.raised known x.2) with hsame | ⟨v, hv, hlast, hlater⟩
        · rw [hsame]
          cases known with
          | none => exact .inr ⟨x.2, hmem, rfl, nofun⟩
          | some k =>
              by_cases hlater : k < x.2
              · refine .inr ⟨x.2, hmem, congrArg some (Nat.max_eq_left hlater.le), ?_⟩
                intro k' hk'
                exact Option.some.inj hk' ▸ hlater
              · exact .inl (congrArg some (Nat.max_eq_right (Nat.le_of_not_lt hlater)))
        · refine .inr ⟨v, List.mem_cons_of_mem x hv, hlast, ?_⟩
          rintro k rfl
          calc k ≤ max x.2 k := Nat.le_max_right x.2 k
            _ < v := hlater _ rfl
      · rcases ih known with hsame | ⟨v, hv, hlast⟩
        · exact .inl hsame
        · exact .inr ⟨v, List.mem_cons_of_mem x hv, hlast⟩

end Raised

namespace Engine

variable {e e₁ : Engine} {w : Worker} {t : OpenTransaction} {relations : List String}

/-- The committed versions of an engine's rows. -/
def committed? (e : Engine) (p : Place) : Option Nat := (e.store.row? p).map (·.version)

/-- Every version that has become known is the committed one. -/
def Learns (locks locks' : LockTable) (cur : Place → Option Nat) : Prop :=
  ∀ p, locks'.cached? p = locks.cached? p ∨ (locks.cached? p = none ∧ locks'.cached? p = cur p)

/-- The locks of a plan are all granted if nobody holds a row. -/
theorem acquire_plan {locks : LockTable} (hfit : locks.Fit relations) (hfree : locks.Free)
    {os : List Obligation} (hos : ∀ o ∈ os, o.relation ∈ relations) (requester : Nat)
    (d : Discipline) :
    ∃ locks', Guard.acquire locks (.ofObligations os) requester d =
        (.ok (⟨requester, .ofObligations os⟩, []), locks') ∧ locks'.Fit relations ∧
      locks'.HeldBy (.ofObligations os) ∧ locks'.cached? = locks.cached? := by
  have hnodup : (LockPlan.places ([] ++ LockPlan.ofObligations os)).Nodup := by
    rw [List.nil_append]
    exact LockPlan.nodup_places_ofObligations os
  have hknown : ∀ q ∈ LockPlan.ofObligations os, q.relation ∈ relations := by
    intro q hq
    obtain ⟨o, ho, hrelation⟩ := LockPlan.exists_of_mem_ofObligations hq
    exact hrelation ▸ hos o ho
  obtain ⟨locks', hall, hfit', hheld, hcached⟩ :=
    LockTable.acquireAll_heldBy hfit hfree.heldBy_nil hnodup hknown requester d
  rw [List.nil_append] at hall hheld
  refine ⟨locks', ?_, hfit', hheld, hcached⟩
  simp only [Guard.acquire, hall]

/-- The versions of written rows become known, and every row is held as before. -/
theorem refresh_views {locks : LockTable} (hfit : locks.Fit relations)
    {written : List (Place × Nat)} (hwritten : ∀ x ∈ written, x.1.1 ∈ relations) :
    ∃ locks', refresh locks written = (.ok (), locks') ∧ locks'.Fit relations ∧
      locks'.hold? = locks.hold? ∧
      ∀ p, locks'.cached? p = raisedAll (locks.cached? p) written p := by
  induction written generalizing locks with
  | nil => exact ⟨locks, rfl, hfit, rfl, fun _ => rfl⟩
  | cons x rest ih =>
      obtain ⟨p, v⟩ := x
      obtain ⟨locks₁, hupdate, hfit₁, hhold, hcached⟩ :=
        LockTable.updateVersion_eq hfit (hwritten (p, v) List.mem_cons_self) v
      obtain ⟨locks', hrefresh, hfit', hhold', hcached'⟩ :=
        ih hfit₁ fun x hx => hwritten x (List.mem_cons_of_mem _ hx)
      refine ⟨locks', ?_, hfit', hhold'.trans hhold, ?_⟩
      · simp only [refresh, show locks.updateVersion p.1 p.2 v = (.ok (), locks₁) from hupdate]
        exact hrefresh
      · intro q
        rw [hcached' q, raisedAll_cons, hcached, Function.update_apply]
        by_cases hq : q = p
        · subst hq
          rw [if_pos rfl]
        · have hne : ¬p = q := fun he => hq he.symm
          rw [if_neg hq, if_neg hne]

/-- Where nobody holds a row, nobody does after the versions have become known. -/
theorem refresh_eq {locks : LockTable} (hfit : locks.Fit relations) (hfree : locks.Free)
    {written : List (Place × Nat)} (hwritten : ∀ x ∈ written, x.1.1 ∈ relations) :
    ∃ locks', refresh locks written = (.ok (), locks') ∧ locks'.Fit relations ∧ locks'.Free ∧
      ∀ p, locks'.cached? p = raisedAll (locks.cached? p) written p := by
  obtain ⟨locks', hrefresh, hfit', hhold, hcached⟩ := refresh_views hfit hwritten
  refine ⟨locks', hrefresh, hfit', ?_, hcached⟩
  intro q
  rw [hhold]
  exact hfree q

/-- What is held before a store commits: nothing without a guard, or the rows of its plan. -/
inductive Guarded (locks : LockTable) : Option Guard → (Place → Bool) → Prop where
  | unchecked (hfree : locks.Free) : Guarded locks none fun _ => false
  | held (g : Guard) (hheld : locks.HeldBy g.held) (hnodup : g.held.places.Nodup) :
    Guarded locks (some g) fun p => g.held.writes p

theorem Guarded.givenBack_eq {locks : LockTable} (hfit : locks.Fit relations)
    {guard : Option Guard} {writes : Place → Bool} (h : Guarded locks guard writes) :
    (givenBack locks guard).Fit relations ∧ (givenBack locks guard).Free ∧
      ∀ p, (givenBack locks guard).cached? p = locks.cached? p := by
  cases h with
  | unchecked hfree => exact ⟨hfit, hfree, fun _ => rfl⟩
  | held g hheld hnodup =>
      obtain ⟨locks', hall, hfit', hfree', hcached⟩ :=
        LockTable.releaseAll_heldBy hfit hheld hnodup false
      have hback : givenBack locks (some g) = locks' := by
        simp only [givenBack, Option.elim_some, Guard.releaseAborted, hall]
      rw [hback]
      refine ⟨hfit', hfree', ?_⟩
      intro p
      rw [hcached p, Bool.false_and, if_neg Bool.false_ne_true]

/-- After a commit, the known versions of rows with an exclusive lock have advanced, and the
versions of the written rows are known. -/
theorem Guarded.settled_eq {locks : LockTable} (hfit : locks.Fit relations)
    {guard : Option Guard} {writes : Place → Bool} (h : Guarded locks guard writes)
    {written : List (Place × Nat)} (hwritten : ∀ x ∈ written, x.1.1 ∈ relations) :
    ∃ locks', settled locks guard written = (.ok (), locks') ∧ locks'.Fit relations ∧
      locks'.Free ∧ ∀ p, locks'.cached? p =
        raisedAll (if writes p then (locks.cached? p).map (· + 1) else locks.cached? p) written
          p := by
  cases h with
  | unchecked hfree =>
      obtain ⟨locks', hrefresh, hfit', hfree', hcached⟩ := refresh_eq hfit hfree hwritten
      refine ⟨locks', ?_, hfit', hfree', hcached⟩
      simp only [settled, Option.elim_none, hrefresh, Fault.first_ok]
  | held g hheld hnodup =>
      obtain ⟨locks₁, hall, hfit₁, hfree₁, hcached₁⟩ :=
        LockTable.releaseAll_heldBy hfit hheld hnodup true
      obtain ⟨locks', hrefresh, hfit', hfree', hcached⟩ := refresh_eq hfit₁ hfree₁ hwritten
      refine ⟨locks', ?_, hfit', hfree', ?_⟩
      · simp only [settled, Option.elim_some, Guard.releaseCommitted, hall, hrefresh,
          Fault.first_ok]
      · intro p
        rw [hcached p, hcached₁ p, Bool.true_and]

end Engine

end LiveIsolation
