import LiveIsolation.Proofs.LockTable.Committer
import Mathlib.Data.Finset.Card

/-!
# Who holds a lock

A lock counts its holders and knows their kind, but not who they are. In a race the count of
every lock is nevertheless the number of the commits whose guards hold it, all with the kind
that the lock has (`Race.Tallied`). What the locks keep apart follows from this and from the one
exclusive request that is granted beside other holders, that of a writer under read committed
(`Race.Sound`).
-/

namespace LiveIsolation

namespace Race

variable {r : Race} {p : Place} {id : Nat}

@[simp] theorem parties_take (r : Race) (id other : Nat) (move : CommitMove) :
    (r.take id move).parties other =
      if other = id then ((r.parties id).step id r.table move).1 else r.parties other :=
  Function.update_apply _ _ _ _

/-- Some commits hold a row together, all with the same kind, and its lock counts them. -/
structure HeldTogether (r : Race) (p : Place) (holders : Finset Nat) (kind : LockKind) : Prop where
  holds : ∀ id k, (r.parties id).Holds p k ↔ id ∈ holders ∧ k = kind
  count : r.table.hold? p = if holders = ∅ then none else some (kind, holders.card)

/-- Every lock counts the commits that hold its row. -/
structure Tallied (r : Race) : Prop where
  fit : r.table.Fit []
  orderly : ∀ id, (r.parties id).Orderly
  tally : ∀ p, ∃ holders kind, r.HeldTogether p holders kind

variable {holders : Finset Nat} {kind : LockKind}

/-- Where nobody takes a row or gives it back, its holders stay. -/
theorem HeldTogether.congr {s : Race} (h : r.HeldTogether p holders kind)
    (hholds : ∀ id k, (s.parties id).Holds p k ↔ (r.parties id).Holds p k)
    (hcount : s.table.hold? p = r.table.hold? p) : s.HeldTogether p holders kind where
  holds id k := (hholds id k).trans (h.holds id k)
  count := hcount.trans h.count

/-- The holders of a row after one more commit has taken it. -/
theorem HeldTogether.insert {s : Race} (h : r.HeldTogether p holders kind) {k : LockKind}
    (hnew : id ∉ holders) (hself : ∀ k', (s.parties id).Holds p k' ↔ k' = k)
    (hothers : ∀ other, other ≠ id → s.parties other = r.parties other)
    (hbeside : ∀ k' n, r.table.hold? p = some (k', n) → k' = k)
    (hcount : s.table.hold? p = Lock.joined (r.table.hold? p) k) :
    s.HeldTogether p (insert id holders) k := by
  have hkind : holders ≠ ∅ → kind = k := by
    intro hne
    apply hbeside kind holders.card
    rw [h.count, if_neg hne]
  constructor
  · intro other k'
    by_cases ho : other = id
    · rw [ho, hself, and_iff_right (Finset.mem_insert_self id holders)]
    · rw [hothers other ho, h.holds, Finset.mem_insert, or_iff_right ho]
      refine and_congr_right fun hmem => ?_
      rw [hkind (Finset.ne_empty_of_mem hmem)]
  · rw [hcount, if_neg (Finset.insert_ne_empty id holders), Finset.card_insert_of_notMem hnew,
      h.count]
    by_cases hempty : holders = ∅
    · rw [if_pos hempty, hempty]
      rfl
    · rw [if_neg hempty]
      rfl

/-- The holders of a row after one of them has given it back. -/
theorem HeldTogether.erase {s : Race} (h : r.HeldTogether p holders kind) {n : Nat}
    (hmem : id ∈ holders) (hself : ∀ k, ¬(s.parties id).Holds p k)
    (hothers : ∀ other, other ≠ id → s.parties other = r.parties other)
    (hcard : holders.card = n + 1)
    (hcount : s.table.hold? p = if n = 0 then none else some (kind, n)) :
    s.HeldTogether p (holders.erase id) kind := by
  have hcard' : (holders.erase id).card = n := by
    rw [Finset.card_erase_of_mem hmem, hcard, Nat.add_sub_cancel]
  constructor
  · intro other k
    by_cases ho : other = id
    · rw [ho]
      exact iff_of_false (hself k) fun hk => Finset.notMem_erase id holders hk.1
    · rw [hothers other ho, h.holds, Finset.mem_erase, and_iff_right ho]
  · have hempty : holders.erase id = ∅ ↔ n = 0 := by rw [← Finset.card_eq_zero, hcard']
    rw [hcount, hcard']
    by_cases hn : n = 0
    · rw [if_pos hn, if_pos (hempty.2 hn)]
    · rw [if_neg hn, if_neg (hempty.not.2 hn)]

/-- A hold of a commit is counted by the lock. -/
theorem HeldTogether.hold?_eq (h : r.HeldTogether p holders kind) {k : LockKind}
    (hp : (r.parties id).Holds p k) :
    ∃ n, holders.card = n + 1 ∧ r.table.hold? p = some (k, n + 1) := by
  obtain ⟨hmem, rfl⟩ := (h.holds id k).1 hp
  have hne : holders ≠ ∅ := Finset.ne_empty_of_mem hmem
  obtain ⟨n, hn⟩ := Nat.exists_eq_succ_of_ne_zero (Finset.card_ne_zero.2 ⟨id, hmem⟩)
  exact ⟨n, hn, by rw [h.count, if_neg hne, hn]⟩

/-- The next hold that a commit gives back is given back as it should be. -/
theorem HeldTogether.release_eq {q : LockRequest} (h : r.HeldTogether q.place holders kind)
    (hfit : r.table.Fit []) (hq : (r.parties id).Holds q.place q.kind) (advance : Bool) :
    ∃ n, holders.card = n + 1 ∧
      (r.table.release q.relation q.key q.kind advance).2.hold? =
        Function.update r.table.hold? q.place (if n = 0 then none else some (q.kind, n)) ∧
      (r.table.release q.relation q.key q.kind advance).2.cached? =
        LockTable.released r.table.cached? q.place q.kind advance := by
  obtain ⟨n, hcard, hcount⟩ := h.hold?_eq hq
  obtain ⟨v, t', hrelease, -, hhold, hcached⟩ :=
    LockTable.release_of_hold? (p := q.place) hfit hcount advance
  rw [show r.table.release q.relation q.key q.kind advance = _ from hrelease]
  exact ⟨n, hcard, hhold, hcached⟩

section Turn
variable {s : Race} (h : r.Tallied)
  (hothers : ∀ other, other ≠ id → s.parties other = r.parties other)
include h hothers

/-- A row that the move of a commit does not concern is held as before. -/
theorem Tallied.together_of_same
    (hholds : ∀ k, (s.parties id).Holds p k ↔ (r.parties id).Holds p k)
    (hcount : s.table.hold? p = r.table.hold? p) :
    ∃ holders kind, s.HeldTogether p holders kind := by
  obtain ⟨holders, kind, htogether⟩ := h.tally p
  refine ⟨holders, kind, htogether.congr ?_ hcount⟩
  intro other k
  by_cases ho : other = id
  · rw [ho]
    exact hholds k
  · rw [hothers other ho]

/-- A commit has taken one more lock. -/
theorem Tallied.together_of_took {q : LockRequest} (hnew : q.place ∉ (r.parties id).held.places)
    (hheld : (s.parties id).held = (r.parties id).held ++ [q])
    (hhold : s.table.hold? = Function.update r.table.hold? q.place
      (Lock.joined (r.table.hold? q.place) q.kind))
    (hbeside : ∀ k n, r.table.hold? q.place = some (k, n) → k = q.kind) (p : Place) :
    ∃ holders kind, s.HeldTogether p holders kind := by
  by_cases hp : p = q.place
  · subst hp
    obtain ⟨holders, kind, htogether⟩ := h.tally q.place
    refine ⟨insert id holders, q.kind, htogether.insert ?_ ?_ hothers hbeside ?_⟩
    · intro hmem
      exact hnew ((htogether.holds id kind).2 ⟨hmem, rfl⟩).mem_places
    · intro k
      rw [Committer.holds_of_concat hheld, and_iff_right rfl]
      exact or_iff_right fun hk => hnew hk.mem_places
    · rw [hhold, Function.update_self]
  · apply h.together_of_same hothers
    · intro k
      rw [Committer.holds_of_concat hheld]
      exact or_iff_left fun hk => hp hk.1
    · rw [hhold, Function.update_of_ne hp]

/-- A commit has given a lock back. -/
theorem Tallied.together_of_gaveBack {q : LockRequest} {advance : Bool}
    (hheld : (r.parties id).held = q :: (s.parties id).held)
    (htable : s.table = (r.table.release q.relation q.key q.kind advance).2) (p : Place) :
    ∃ holders kind, s.HeldTogether p holders kind := by
  have hholds : (r.parties id).Holds q.place q.kind :=
    (Committer.holds_of_cons hheld).2 (.inl ⟨rfl, rfl⟩)
  obtain ⟨holders, kind, htogether⟩ := h.tally q.place
  obtain ⟨n, hcard, hback, -⟩ := htogether.release_eq h.fit hholds advance
  rw [← htable] at hback
  by_cases hp : p = q.place
  · subst hp
    obtain ⟨hmem, hkind⟩ := (htogether.holds id q.kind).1 hholds
    refine ⟨holders.erase id, kind, htogether.erase hmem ?_ hothers hcard ?_⟩
    · intro k hk
      exact (h.orderly id).notMem_of_cons hheld hk.mem_places
    · rw [hback, Function.update_self, hkind]
  · apply h.together_of_same hothers
    · intro k
      rw [Committer.holds_of_cons hheld]
      exact (or_iff_right fun hk => hp hk.1).symm
    · rw [hback, Function.update_of_ne hp]

end Turn

/-- What holds of whatever a commit moves to, and of a commit that rests, holds after a move of
the race. -/
theorem Tallied.party_take (h : r.Tallied) (id other : Nat) (move : CommitMove)
    {P : Committer → Committer → Prop} (hrest : ∀ c, P c c)
    (hmove : ∀ c t x, Committer.Moved c t x → P c x.1) :
    P (r.parties other) ((r.take id move).parties other) := by
  rw [parties_take]
  split
  · rename_i ho
    rw [ho]
    exact hmove _ _ _ (Committer.moved_step (h.orderly id) h.fit id move)
  · exact hrest _

/-- The tally is kept where nobody takes a lock or gives one back. -/
theorem Tallied.congr {s : Race} (h : r.Tallied) (hparties : s.parties = r.parties)
    (hfit : s.table.Fit []) (hhold : s.table.hold? = r.table.hold?) : s.Tallied := by
  refine ⟨hfit, fun id => hparties ▸ h.orderly id, fun p => ?_⟩
  obtain ⟨holders, kind, htogether⟩ := h.tally p
  exact ⟨holders, kind, htogether.congr (fun _ _ => by rw [hparties]) (congrFun hhold p)⟩

/-- The tally is kept where one commit makes a move, whatever number it asks for locks under. -/
theorem Tallied.moved {s : Race} (h : r.Tallied) (id : Nat)
    (hmoved : (r.parties id).Moved r.table (s.parties id, s.table))
    (hothers : ∀ other, other ≠ id → s.parties other = r.parties other) : s.Tallied := by
  refine ⟨hmoved.fit, ?_, ?_⟩
  · intro other
    by_cases ho : other = id
    · exact ho ▸ hmoved.orderly
    · exact hothers other ho ▸ h.orderly other
  · intro p
    have hchange := hmoved.change
    generalize hx : (s.parties id, s.table) = x at hchange
    have hself : s.parties id = x.1 := congrArg Prod.fst hx
    have htable : s.table = x.2 := congrArg Prod.snd hx
    cases hchange with
    | aside c' t' hheld _ hhold _ =>
        apply h.together_of_same hothers
        · intro k
          rw [hself, Committer.Holds, Committer.Holds, hheld]
        · rw [htable, hhold]
    | took c' t' q hnew hheld _ hhold hbeside _ =>
        have hheld' := (congrArg Committer.held hself).trans hheld
        have hhold' := (congrArg LockTable.hold? htable).trans hhold
        exact h.together_of_took hothers hnew hheld' hhold' (fun k n hk => (hbeside k n hk).1) p
    | gaveBack c' q rest advance hstage hheld hheld' _ =>
        have hrest := (congrArg Committer.held hself).trans hheld'
        exact h.together_of_gaveBack hothers (hrest ▸ hheld) htable p

/-- The tally is kept by whatever move. -/
theorem Tallied.take (h : r.Tallied) (id : Nat) (move : CommitMove) : (r.take id move).Tallied := by
  refine h.moved id ?_ fun other ho => by rw [parties_take, if_neg ho]
  rw [parties_take, if_pos rfl]
  exact Committer.moved_step (h.orderly id) h.fit id move

theorem Tallied.discipline_take (h : r.Tallied) (id other : Nat) (move : CommitMove) :
    ((r.take id move).parties other).discipline = (r.parties other).discipline :=
  h.party_take id other move (P := fun c c' => c'.discipline = c.discipline) (fun _ => rfl)
    fun _ _ _ hm => hm.discipline

theorem Tallied.obligations_take (h : r.Tallied) (id other : Nat) (move : CommitMove) :
    ((r.take id move).parties other).obligations = (r.parties other).obligations :=
  h.party_take id other move (P := fun c c' => c'.obligations = c.obligations) (fun _ => rfl)
    fun _ _ _ hm => hm.obligations

/-- What has been compared remains compared. -/
theorem Tallied.compared_take (h : r.Tallied) (id other : Nat) (move : CommitMove)
    {e : Obligation × Option Nat} (he : e ∈ (r.parties other).compared) :
    e ∈ ((r.take id move).parties other).compared :=
  h.party_take id other move (P := fun c c' => e ∈ c.compared → e ∈ c'.compared) (fun _ he => he)
    (fun _ _ _ hm => hm.compared e) he

/-- All commits that hold a row hold it with one kind. -/
theorem Tallied.kind_eq (h : r.Tallied) {other : Nat} {k k' : LockKind}
    (hp : (r.parties id).Holds p k) (hp' : (r.parties other).Holds p k') : k = k' := by
  obtain ⟨holders, kind, htogether⟩ := h.tally p
  exact ((htogether.holds id k).1 hp).2.trans ((htogether.holds other k').1 hp').2.symm

/-- A row that a commit holds is held, with its kind. -/
theorem Tallied.hold?_eq (h : r.Tallied) (hp : (r.parties id).Holds p kind) :
    ∃ n, r.table.hold? p = some (kind, n + 1) := by
  obtain ⟨holders, kind', htogether⟩ := h.tally p
  obtain ⟨n, -, hcount⟩ := htogether.hold?_eq hp
  exact ⟨n, hcount⟩

/-- The known versions after a hold of a commit has been given back. -/
theorem Tallied.cached?_release (h : r.Tallied) {q : LockRequest}
    (hq : (r.parties id).Holds q.place q.kind) (advance : Bool) :
    (r.table.release q.relation q.key q.kind advance).2.cached? =
      LockTable.released r.table.cached? q.place q.kind advance := by
  obtain ⟨holders, kind, htogether⟩ := h.tally q.place
  obtain ⟨n, -, -, hback⟩ := htogether.release_eq h.fit hq advance
  exact hback

/-- Whoever holds a row after a move has held it before or is granted it by the move. A writer
is granted a row that another commit holds only under read committed. -/
theorem Tallied.holds_take (h : r.Tallied) {other : Nat} {move : CommitMove}
    (hp : ((r.take id move).parties other).Holds p kind) :
    (r.parties other).Holds p kind ∨
      (other = id ∧ ((r.take id move).parties id).compared = [] ∧
        ∀ holder k, (r.parties holder).Holds p k → kind = .exclusive →
          (r.parties id).discipline = .readCommitted) := by
  rw [parties_take] at hp
  rw [parties_take, if_pos rfl]
  split at hp
  · rename_i ho
    subst ho
    have hchange := (Committer.moved_step (h.orderly other) h.fit other move).change
    generalize (r.parties other).step other r.table move = x at *
    cases hchange with
    | aside c' t' hheld _ _ _ =>
        left
        rwa [Committer.Holds, ← hheld]
    | took c' t' q hnew hheld hcompared _ hbeside _ =>
        rcases (Committer.holds_of_concat hheld).1 hp with hp | ⟨rfl, rfl⟩
        · exact .inl hp
        · right
          refine ⟨rfl, hcompared, ?_⟩
          intro holder k hk hexclusive
          obtain ⟨n, hcount⟩ := h.hold?_eq hk
          exact (hbeside k (n + 1) hcount).2 hexclusive
    | gaveBack c' q rest advance _ hheld hheld' _ =>
        left
        exact (Committer.holds_of_cons (hheld.trans (congrArg _ hheld'.symm))).2 (.inr hp)
  · exact .inl hp

/-- The known versions after the next hold of a commit has been given back. -/
theorem Tallied.cached?_giveBack (h : r.Tallied) {q : LockRequest} {rest : LockPlan}
    {advance : Bool} (hstage : (r.parties id).stage = .releasing advance)
    (hheld : (r.parties id).held = q :: rest) :
    (r.take id .next).table.cached? =
      LockTable.released r.table.cached? q.place q.kind advance := by
  have hholds : (r.parties id).Holds q.place q.kind := by
    rw [Committer.Holds, hheld]
    exact List.mem_cons_self
  rw [← h.cached?_release hholds advance]
  simp only [Race.take, Committer.step, hstage, Committer.giveBack, hheld]

/-- A version that is known moves only when a writer of the row gives it back after a commit. -/
theorem Tallied.cached?_take (h : r.Tallied) {v : Nat} (hv : r.table.cached? p = some v)
    (id : Nat) (move : CommitMove) :
    (r.take id move).table.cached? p = some v ∨
      ((r.take id move).table.cached? p = some (v + 1) ∧
        (r.parties id).stage = .releasing true ∧
        (r.parties id).held.head? = some ⟨p.1, p.2, .exclusive⟩ ∧
        p ∉ ((r.take id move).parties id).held.places) := by
  have hchange := (Committer.moved_step (h.orderly id) h.fit id move).change
  have htable : (r.take id move).table = ((r.parties id).step id r.table move).2 := rfl
  rw [htable, parties_take, if_pos rfl]
  generalize (r.parties id).step id r.table move = x at *
  cases hchange with
  | aside c' t' _ _ _ hcached => exact .inl (hcached p v hv)
  | took c' t' q _ _ _ _ _ hcached => exact .inl (by rw [hcached, hv])
  | gaveBack c' q rest advance hstage hheld hheld' _ =>
      have hcons : (r.parties id).held = q :: c'.held := by rw [hheld, hheld']
      have hholds : (r.parties id).Holds q.place q.kind :=
        (Committer.holds_of_cons hcons).2 (.inl ⟨rfl, rfl⟩)
      rw [h.cached?_release hholds advance, LockTable.released]
      by_cases hadvance : (advance && q.kind == .exclusive) = true
      · rw [if_pos hadvance, Function.update_apply]
        split
        · rename_i hp
          subst hp
          obtain ⟨rfl, hkind⟩ : advance = true ∧ q.kind = .exclusive := by simpa using hadvance
          right
          refine ⟨by rw [hv]; rfl, hstage, ?_, (h.orderly id).notMem_of_cons hcons⟩
          rw [hheld, List.head?_cons, ← hkind]
          rfl
        · exact .inl hv
      · rw [if_neg hadvance]
        exact .inl hv

/-- What agrees after a move has agreed before, or agrees with what is known now. -/
theorem Tallied.agreed_take (h : r.Tallied) {other : Nat} {move : CommitMove} {o : Obligation}
    (ho : ((r.take id move).parties other).Agreed o) :
    (r.parties other).Agreed o ∨ (r.take id move).table.cached? o.place = o.observed := by
  have htable : (r.take id move).table = ((r.parties id).step id r.table move).2 := rfl
  rw [parties_take] at ho
  rw [htable]
  split at ho
  · rename_i he
    subst he
    have hchange := (Committer.moved_step (h.orderly other) h.fit other move).change
    generalize (r.parties other).step other r.table move = x at *
    cases hchange with
    | aside c' t' _ hagreed _ _ => exact hagreed o ho
    | took c' t' q _ _ hcompared _ _ _ =>
        have hmem := ho.2
        rw [hcompared] at hmem
        cases hmem
    | gaveBack c' q rest advance _ _ _ hcompared =>
        left
        rwa [Committer.Agreed, ← hcompared]
  · exact .inl ho

/-- Nobody else can advance the version of a row that a commit has taken: the commit does not
write the row, or no commit is under read committed. -/
def Shielded (r : Race) (id : Nat) (p : Place) : Prop :=
  (∀ o ∈ (r.parties id).duties, o.place = p → o.kind.isWrite = false) ∨
    ∀ other, (r.parties other).discipline = .snapshot

/-- Writers hold a row together only if all but one of them are under read committed. A version
that has been agreed with is known, and stays where it is shielded until its row is given back. -/
structure Sound (r : Race) : Prop extends r.Tallied where
  apart : ∀ p id other, id ≠ other → (r.parties id).Holds p .exclusive →
    (r.parties other).Holds p .exclusive →
    (r.parties id).discipline = .readCommitted ∨ (r.parties other).discipline = .readCommitted
  known : ∀ id o, (r.parties id).Agreed o → (r.table.cached? o.place).isSome = true
  steady : ∀ id o, (r.parties id).Agreed o → o.place ∈ (r.parties id).held.places →
    r.Shielded id o.place → r.table.cached? o.place = o.observed

theorem Tallied.shielded_take (h : r.Tallied) {other : Nat} {move : CommitMove} :
    (r.take id move).Shielded other p ↔ r.Shielded other p := by
  have hduties : ((r.take id move).parties other).duties = (r.parties other).duties := by
    rw [Committer.duties, h.discipline_take, h.obligations_take]
    rfl
  simp only [Shielded, hduties, h.discipline_take]

/-- A commit whose lock shields a row does not hold it together with a writer. -/
theorem Sound.not_together (h : r.Sound) {other : Nat} (hne : other ≠ id)
    (hp : p ∈ (r.parties other).held.places) (hshield : r.Shielded other p) :
    ¬(r.parties id).Holds p .exclusive := by
  intro hexclusive
  obtain ⟨k, hk⟩ := Committer.exists_holds hp
  obtain rfl : k = .exclusive := h.kind_eq hk hexclusive
  rcases hshield with hreads | hall
  · obtain ⟨o, ho, hplace, hwrite⟩ := (h.orderly other).writes_of_holds hk
    rw [hreads o ho hplace] at hwrite
    cases hwrite
  · have hapart := h.apart p other id hne hk hexclusive
    rw [hall, hall] at hapart
    rcases hapart with hapart | hapart <;> cases hapart

/-- A commit that has compared something takes no more locks. -/
theorem Tallied.held_of_take (h : r.Tallied) {other : Nat} {move : CommitMove}
    {e : Obligation × Option Nat} (he : e ∈ ((r.take id move).parties other).compared)
    (hp : p ∈ ((r.take id move).parties other).held.places) :
    p ∈ (r.parties other).held.places := by
  obtain ⟨k, hk⟩ := Committer.exists_holds hp
  rcases h.holds_take hk with hk | ⟨rfl, hcompared, -⟩
  · exact hk.mem_places
  · rw [hcompared] at he
    cases he

/-- A known version of a row that a commit shields stays where it is. -/
theorem Sound.cached_take (h : r.Sound) {other : Nat} {move : CommitMove} {v : Nat}
    (hp : p ∈ (r.parties other).held.places)
    (hp' : p ∈ ((r.take id move).parties other).held.places) (hshield : r.Shielded other p)
    (hv : r.table.cached? p = some v) : (r.take id move).table.cached? p = some v := by
  rcases h.cached?_take hv id move with hc | ⟨-, -, hhead, hgone⟩
  · exact hc
  · have hne : other ≠ id := by
      rintro rfl
      exact hgone hp'
    exact absurd (List.mem_of_mem_head? hhead) (h.not_together hne hp hshield)

theorem Sound.take (h : r.Sound) (id : Nat) (move : CommitMove) : (r.take id move).Sound := by
  refine ⟨h.toTallied.take id move, ?_, ?_, ?_⟩
  · intro p first second hne hfirst hsecond
    rw [h.discipline_take, h.discipline_take]
    rcases h.holds_take hfirst with hbefore | ⟨rfl, -, hjoined⟩
    · rcases h.holds_take hsecond with hbefore' | ⟨rfl, -, hjoined⟩
      · exact h.apart p first second hne hbefore hbefore'
      · exact .inr (hjoined first _ hbefore rfl)
    · rcases h.holds_take hsecond with hbefore' | ⟨rfl, -, -⟩
      · exact .inl (hjoined second _ hbefore' rfl)
      · exact absurd rfl hne
  · intro other o ho
    rcases h.agreed_take ho with hbefore | hnow
    · obtain ⟨v, hv⟩ := Option.isSome_iff_exists.1 (h.known other o hbefore)
      rcases h.cached?_take hv id move with hc | ⟨hc, -⟩
      · rw [hc]
        rfl
      · rw [hc]
        rfl
    · rw [hnow]
      exact ho.1
  · intro other o ho hheld hshield
    rw [h.shielded_take] at hshield
    rcases h.agreed_take ho with hbefore | hnow
    · have hheld' := h.held_of_take ho.2 hheld
      have hsteady := h.steady other o hbefore hheld' hshield
      obtain ⟨v, hv⟩ := Option.isSome_iff_exists.1 (h.known other o hbefore)
      rw [h.cached_take hheld' hheld hshield hv, ← hsteady, hv]
    · exact hnow

theorem sound_start {t : LockTable} (hfit : t.Fit []) (hfree : t.Free)
    (discipline : Nat → Discipline) (obligations : Nat → Obligations) :
    (start t discipline obligations).Sound where
  fit := hfit
  orderly _ := Committer.orderly_idle _ _
  tally p := by
    refine ⟨∅, .shared, ⟨fun id k => ?_, hfree p⟩⟩
    exact iff_of_false List.not_mem_nil fun hk => Finset.notMem_empty id hk.1
  apart _ _ _ _ h _ := absurd h List.not_mem_nil
  known _ _ h := absurd h.2 List.not_mem_nil
  steady _ _ h _ _ := absurd h.2 List.not_mem_nil

theorem Sound.run (h : r.Sound) (moves : List (Nat × CommitMove)) : (r.run moves).Sound :=
  List.foldlRecOn moves _ h fun _ h m _ => h.take m.1 m.2

/-- Who takes part in a race, and with what, does not change, and what has been compared
remains so. -/
theorem Sound.parties_run (h : r.Sound) (moves : List (Nat × CommitMove)) (id : Nat) :
    ((r.run moves).parties id).discipline = (r.parties id).discipline ∧
      ((r.run moves).parties id).obligations = (r.parties id).obligations ∧
      ∀ e ∈ (r.parties id).compared, e ∈ ((r.run moves).parties id).compared := by
  induction moves generalizing r with
  | nil => exact ⟨rfl, rfl, fun _ he => he⟩
  | cons m rest ih =>
      obtain ⟨hdiscipline, hobligations, hcompared⟩ := ih (h.take m.1 m.2)
      refine ⟨?_, ?_, ?_⟩
      · exact hdiscipline.trans (h.discipline_take m.1 id m.2)
      · exact hobligations.trans (h.obligations_take m.1 id m.2)
      · exact fun e he => hcompared e (h.compared_take m.1 id m.2 he)

/-- What a commit still holds it has held since it began to compare. -/
theorem Sound.held_of_run (h : r.Sound) (moves : List (Nat × CommitMove))
    {e : Obligation × Option Nat} (he : e ∈ (r.parties id).compared)
    (hp : p ∈ ((r.run moves).parties id).held.places) : p ∈ (r.parties id).held.places := by
  induction moves generalizing r with
  | nil => exact hp
  | cons m rest ih =>
      have he' := h.compared_take m.1 id m.2 he
      exact h.held_of_take he' (ih (h.take m.1 m.2) he' hp)

/-- A known version of a row that a commit shields stays until its guard gives the row back. -/
theorem Sound.cached_run (h : r.Sound) (moves : List (Nat × CommitMove))
    {e : Obligation × Option Nat} (he : e ∈ (r.parties id).compared)
    (hp : p ∈ ((r.run moves).parties id).held.places) (hshield : r.Shielded id p) {v : Nat}
    (hv : r.table.cached? p = some v) : (r.run moves).table.cached? p = some v := by
  induction moves generalizing r with
  | nil => exact hv
  | cons m rest ih =>
      have hnext := h.take m.1 m.2
      have he' := h.compared_take m.1 id m.2 he
      have hheld' := hnext.held_of_run rest he' hp
      have hheld := h.held_of_take he' hheld'
      exact ih hnext he' hp (h.shielded_take.2 hshield) (h.cached_take hheld hheld' hshield hv)

end Race

end LiveIsolation
