import LiveIsolation.Proofs.LockTable.Holders

/-!
# The numbers of releases

A requester that has to wait watches the number of releases in the bucket of its row
(`LockTable.releases`). A hold that is given back is counted in its bucket and in no other one,
and nothing else that a table is asked is counted anywhere. As long as nothing is counted in a
bucket, a row of it that readers hold goes on being held by readers (`LockTable.Quiet`).
-/

namespace LiveIsolation

namespace Lock

variable {l : Lock} {requester : Nat} {kind : LockKind} {d : Discipline} {left : Nat}

/-- Only a writer is told to wait, and only behind readers. -/
theorem reading_of_waits (h : (l.tryOnce requester kind d left).1 = none) :
    kind = .exclusive ∧ l.holder = some .shared := by
  have hanswer : l.answer requester kind d = .wait := by
    rw [← attempt_fst]
    simp only [tryOnce] at h
    split at h
    · cases h
    · cases h
    · rename_i hattempt
      rw [hattempt]
  exact (holder_of_wait hanswer).symm

end Lock

namespace RelationLocks

variable {r : RelationLocks} {c : LockTableConfig} {key : RowKey}

@[simp] theorem releases_put (r : RelationLocks) (key : RowKey) (l : Lock) :
    (r.put key l).releases = r.releases := rfl

@[simp] theorem releases_prune (r : RelationLocks) (c : LockTableConfig) (key : RowKey) :
    (r.prune c key).releases = r.releases := by
  rcases r.prune_eq c key with he | he
  · rw [he]
  · rw [he]

@[simp] theorem releases_touch {α : Type} (r : RelationLocks) (c : LockTableConfig)
    (key : RowKey) (f : Lock → α × Lock) : (r.touch c key f).2.releases = r.releases := by
  rw [touch_eq, releases_put]
  split
  · rfl
  · exact releases_prune r c key

@[simp] theorem releases_withdraw (r : RelationLocks) (key : RowKey) (requester : Nat) :
    (r.withdraw key requester).releases = r.releases := by
  simp only [withdraw, change]
  split
  · rfl
  · rfl

theorem releases_tryOnce (r : RelationLocks) (c : LockTableConfig) (key : RowKey)
    (requester : Nat) (kind : LockKind) (d : Discipline) (left : Nat) :
    (r.tryOnce c key requester kind d left).2.releases = r.releases := by
  have hattempt : (r.attempt c key requester kind d).2.releases = r.releases :=
    releases_touch r c key _
  simp only [tryOnce]
  generalize r.attempt c key requester kind d = x at hattempt
  obtain ⟨answer, s⟩ := x
  cases answer with
  | granted => exact hattempt
  | refused => exact (releases_withdraw s key requester).trans hattempt
  | wait =>
      dsimp only
      split
      · exact (releases_withdraw s key requester).trans hattempt
      · exact hattempt

theorem releases_acquireWithin (r : RelationLocks) (c : LockTableConfig) (key : RowKey)
    (requester : Nat) (kind : LockKind) (d : Discipline) (left : Nat) :
    (r.acquireWithin c key requester kind d left).2.releases = r.releases := by
  induction left generalizing r with
  | zero => exact releases_tryOnce r c key requester kind d 0
  | succ left ih =>
      have htry := releases_tryOnce r c key requester kind d (left + 1)
      simp only [acquireWithin]
      generalize r.tryOnce c key requester kind d (left + 1) = x at htry
      obtain ⟨outcome, s⟩ := x
      cases outcome with
      | some outcome => exact htry
      | none => exact (ih s).trans htry

theorem releases_currentVersion (r : RelationLocks) (c : LockTableConfig) (key : RowKey)
    (fetch : Except Fault (Option Nat)) :
    (r.currentVersion c key fetch).2.releases = r.releases := by
  simp only [currentVersion]
  split
  · rfl
  · exact releases_touch r c key _
  · rfl
  · rfl

/-- A hold that is given back is counted in its bucket. -/
theorem releases_release {relation : String} {kind : LockKind} {advance : Bool}
    {v : Option Nat} {s : RelationLocks} (h : r.release c relation key kind advance = .ok (v, s))
    (b : Nat) : s.releases b = r.releases b + if b = c.bucketOf key then 1 else 0 := by
  simp only [release] at h
  split at h
  · cases h
  · split at h
    · cases h
    · obtain ⟨-, rfl⟩ := Prod.mk.inj (Except.ok.inj h)
      simp only [signal, releases_put]
      split
      · rfl
      · rfl

end RelationLocks

namespace LockTable

variable {t t' : LockTable} {known : List String} {p q : Place} {c : LockCall}

/-- The number of releases that a requester for a row watches. -/
def releases (t : LockTable) (p : Place) : Nat :=
  (t.find? p.1).elim 0 (·.generation t.config p.2)

/-- Two rows are in one bucket of their relation. -/
def SameBucket (t : LockTable) (p q : Place) : Prop :=
  p.1 = q.1 ∧ t.config.bucketOf p.2 = t.config.bucketOf q.2

instance (t : LockTable) (p q : Place) : Decidable (t.SameBucket p q) :=
  inferInstanceAs (Decidable (_ ∧ _))

theorem releases_of_find? {r : RelationLocks} (h : t.find? p.1 = some r) :
    t.releases p = r.generation t.config p.2 := by
  simp [releases, h]

/-- The locks of a relation are exchanged, and nothing is counted. -/
theorem releases_put {relation : String} {r s : RelationLocks} (hr : t.find? relation = some r)
    (hs : s.releases = r.releases) : (t.put relation s).releases = t.releases := by
  funext p
  simp only [releases, find?_put, RelationLocks.generation]
  split
  · rename_i hp
    rw [hp, hr]
    exact congrFun hs _
  · rfl

/-- What happens to a table while nothing is given back: a row that readers hold goes on being
held by readers, and no release is counted. -/
structure Quiet (t t' : LockTable) : Prop where
  config : t'.config = t.config
  releases : t'.releases = t.releases
  reading : ∀ p n, t.hold? p = some (.shared, n + 1) → ∃ m, t'.hold? p = some (.shared, m + 1)

theorem Quiet.refl (t : LockTable) : t.Quiet t := ⟨rfl, rfl, fun _ n hp => ⟨n, hp⟩⟩

/-- Where another holder has joined those of a row, readers have been joined by a reader. -/
theorem reading_of_joined {q : LockRequest}
    (hhold : t'.hold? = Function.update t.hold? q.place (Lock.joined (t.hold? q.place) q.kind))
    (hkind : ∀ k n, t.hold? q.place = some (k, n) → k = q.kind) {n : Nat}
    (hp : t.hold? p = some (.shared, n + 1)) : ∃ m, t'.hold? p = some (.shared, m + 1) := by
  rw [hhold, Function.update_apply]
  split
  · rename_i he
    subst he
    exact ⟨n + 1, by rw [hp, ← hkind .shared (n + 1) hp]; rfl⟩
  · exact ⟨n, hp⟩

/-- A call that gives nothing back exchanges the locks of its relation at most, and counts no
release. -/
inductive Serves (t : LockTable) (relation : String) : LockTable → Prop where
  | aside : Serves t relation t
  | changed (f : RelationLocks → RelationLocks) (hf : ∀ r, (f r).releases = r.releases) :
    Serves t relation (t.within relation fun r => ((), f r)).2

theorem serves_within {α : Type} (t : LockTable) (relation : String)
    {f : RelationLocks → α × RelationLocks} (hf : ∀ r, (f r).2.releases = r.releases) :
    t.Serves relation (t.within relation f).2 := by
  have hsame : (t.within relation f).2 = (t.within relation fun r => ((), (f r).2)).2 := by
    simp only [within]
    split
    · rfl
    · rfl
  rw [hsame]
  exact .changed _ hf

theorem Serves.config {relation : String} (h : t.Serves relation t') :
    t'.config = t.config := by
  cases h with
  | aside => rfl
  | changed f hf =>
      simp only [within]
      split
      · rfl
      · rfl

theorem Serves.releases {relation : String} (h : t.Serves relation t') :
    t'.releases = t.releases := by
  cases h with
  | aside => rfl
  | changed f hf =>
      cases hr : t.find? relation with
      | none => simp [within, hr]
      | some r =>
          rw [within_of_find? hr]
          exact releases_put hr (hf r)

theorem serves_serve (t : LockTable) {c : LockCall} (h : c.op.returned? = none) :
    t.Serves c.relation (t.serve c).2 := by
  obtain ⟨relation, key, op⟩ := c
  cases op with
  | attempt requester kind d =>
      have hf : ∀ r : RelationLocks,
          (r.attempt t.config key requester kind d).2.releases = r.releases :=
        fun r => RelationLocks.releases_touch r _ _ _
      exact t.serves_within relation hf
  | acquire requester kind d =>
      exact t.serves_within relation fun r =>
        RelationLocks.releases_acquireWithin r _ _ _ _ _ _
  | release kind => cases h
  | releaseAndAdvance kind => cases h
  | withdraw requester => exact .changed _ fun r => RelationLocks.releases_withdraw r _ _
  | updateVersion v => exact .changed _ fun r => RelationLocks.releases_touch r _ _ _
  | observeVersion v => exact .changed _ fun r => RelationLocks.releases_touch r _ _ _
  | currentVersion fetch =>
      have hserves := t.serves_within relation (f := (·.currentVersion t.config key fetch))
        fun r => RelationLocks.releases_currentVersion r _ _ _
      simp only [serve, currentVersion]
      split
      · rename_i he
        rwa [he] at hserves
      · rename_i he
        rwa [he] at hserves
  | version => exact .aside

/-- A call that gives nothing back is a quiet one. -/
theorem Whole.quiet_serve (h : t.Whole known) (hreturned : c.op.returned? = none) :
    t.Quiet (t.serve c).2 := by
  have hserves := t.serves_serve hreturned
  refine ⟨hserves.config, hserves.releases, fun p n hp => ?_⟩
  have hserved := h.served c
  generalize t.serve c = x at hserved
  cases hserved with
  | unknown f => exact ⟨n, hp⟩
  | known reply t' _ hlock =>
      have hjoins := LockOp.joins_on t.config.wait.retries (t.lockAt c.place) hreturned
      have hhold := (views_of_update hlock).1
      generalize (c.op.on t.config.wait.retries (t.lockAt c.place)).1.toOption.bind c.op.granted? =
        g at hjoins
      generalize (c.op.on t.config.wait.retries (t.lockAt c.place)).2 = m at hjoins hhold
      cases hjoins with
      | granted requester kind _ hjoined hkind =>
          exact reading_of_joined (q := c.request kind) (hjoined ▸ hhold) hkind hp
      | apart _ hsame =>
          have hviews : t'.hold? = t.hold? :=
            (hsame ▸ hhold).trans (Function.update_eq_self c.place t.hold?)
          exact ⟨n, hviews ▸ hp⟩

/-- What becomes of a call that gives a hold back: it is turned down, and nothing changes, or the
row was held in this way, and a release is counted in its bucket. -/
inductive Returned (t : LockTable) (q : LockRequest) : Except Fault LockReply × LockTable → Prop
  where
  | refused (f : Fault) : Returned t q (.error f, t)
  | done (reply : LockReply) (t' : LockTable) (hheld : t.holders q ≠ 0)
    (hconfig : t'.config = t.config)
    (hreleases : ∀ p, t'.releases p = t.releases p + if t.SameBucket p q.place then 1 else 0)
    (hhold : ∀ p, p ≠ q.place → t'.hold? p = t.hold? p) : Returned t q (.ok reply, t')

section Returned
variable {q : LockRequest} {r s : RelationLocks} {advance : Bool} {v : Option Nat}
  (hr : t.find? q.relation = some r)
  (hback : r.release t.config q.relation q.key q.kind advance = .ok (v, s))
include hr hback

/-- A hold that is given back is counted for the rows of its bucket. -/
theorem releases_put_of_release (p : Place) :
    (t.put q.relation s).releases p =
      t.releases p + if t.SameBucket p q.place then 1 else 0 := by
  have hconfig : (t.put q.relation s).config = t.config := rfl
  simp only [releases, find?_put, hconfig]
  by_cases hp : p.1 = q.relation
  · have hsame : t.SameBucket p q.place ↔ t.config.bucketOf p.2 = t.config.bucketOf q.key :=
      and_iff_right hp
    rw [if_pos hp, hp, hr]
    simp only [Option.elim_some, RelationLocks.generation, RelationLocks.releases_release hback,
      hsame]
  · rw [if_neg hp, if_neg fun hsame => hp hsame.1, Nat.add_zero]

/-- Only what is held is given back. -/
theorem Whole.holders_of_release (h : t.Whole known) : t.holders q ≠ 0 := by
  have hsane := (h.sane _ r hr).release t.config q.relation q.key q.kind advance
  rw [hback] at hsane
  obtain ⟨l, hl⟩ : ∃ l, (t.lockAt q.place).release q.kind = (.ok (), l) := by
    have hanswer := hsane.answer
    rw [show t.lockAt q.place = r.lockAt q.key from lockAt_of_find? hr]
    simp only [Lock.giveBack] at hanswer
    split at hanswer
    · exact ⟨_, by assumption⟩
    · cases hanswer
  obtain ⟨hholder, hcount⟩ := Lock.release_eq_ok hl
  have hhold : t.hold? q.place = some (q.kind, l.count + 1) := by
    simp [hold?, Lock.hold?, hholder, hcount]
  simp [holders, hhold]

/-- Other rows are held as before. -/
theorem Whole.hold?_put_of_release (h : t.Whole known) {p : Place} (hp : p ≠ q.place) :
    (t.put q.relation s).hold? p = t.hold? p := by
  have hsane := (h.sane _ r hr).release t.config q.relation q.key q.kind advance
  rw [hback] at hsane
  have hview : ∀ k, (s.lockAt k).hold? =
      if k = q.place.2 then (s.lockAt q.key).hold? else (r.lockAt k).hold? := by
    intro k
    rw [hsane.locks]
    by_cases hk : k = q.key
    · subst hk
      exact (if_pos rfl).symm
    · rw [Function.update_of_ne hk]
      exact (if_neg hk).symm
  have hput := view_put (p := q.place) Lock.hold? hr hview p
  rw [if_neg hp] at hput
  exact hput

end Returned

theorem Whole.returned_release (h : t.Whole known) (q : LockRequest) (advance : Bool)
    (reply : Option Nat → LockReply) :
    t.Returned q ((t.release q.relation q.key q.kind advance).map (.map reply) id) := by
  cases hr : t.find? q.relation with
  | none =>
      have hnone : t.release q.relation q.key q.kind advance =
          (.error (.unknownRelation q.relation), t) := by simp [release, hr]
      rw [hnone]
      exact .refused _
  | some r =>
      cases hback : r.release t.config q.relation q.key q.kind advance with
      | error f =>
          have hrefused : t.release q.relation q.key q.kind advance = (.error f, t) := by
            simp [release, hr, hback]
          rw [hrefused]
          exact .refused f
      | ok back =>
          have hdone : t.release q.relation q.key q.kind advance =
              (.ok back.1, t.put q.relation back.2) := by simp [release, hr, hback]
          rw [hdone]
          exact .done _ _ (h.holders_of_release hr hback) rfl (releases_put_of_release hr hback)
            fun p hp => h.hold?_put_of_release hr hback hp

theorem Whole.returned_serve (h : t.Whole known) {kind : LockKind}
    (hreturned : c.op.returned? = some kind) : t.Returned (c.request kind) (t.serve c) := by
  obtain ⟨relation, key, op⟩ := c
  cases op with
  | release k =>
      obtain rfl := Option.some.inj hreturned
      exact h.returned_release ⟨relation, key, k⟩ false fun _ => .done
  | releaseAndAdvance k =>
      obtain rfl := Option.some.inj hreturned
      exact h.returned_release ⟨relation, key, k⟩ true .version
  | attempt | acquire | withdraw | updateVersion | observeVersion | currentVersion | version =>
      cases hreturned

end LockTable

end LiveIsolation
