import LiveIsolation.Proofs.Lock.Ledger
import Mathlib.Order.MinMax

/-!
# Pending writers

The marks of a lock for its oldest and its youngest pending writer turn younger readers away, and
are taken back when that writer is granted the lock or gives up. A writer that finds the lock free
is taken out of the marks, but one that joins other writers is not. So a mark of nobody who is
pending is that of a writer which joined others while it was marked (`Lock.Waitlist.phantom_iff`).

## Implementation notes

The marks know two writers at most. The waitlist (`Lock.Waitlist`) keeps beside the ledger who is
pending and who was overlooked, in the sense above.
-/

namespace LiveIsolation

namespace Lock

variable {l : Lock} {requester w : Nat} {kind : LockKind} {d : Discipline}

/-- A mark for pending writers is that of the writer. -/
def Marks (l : Lock) (w : Nat) : Prop := l.minWriteWait = some w ∨ l.maxWriteWait = some w

instance : Decidable (l.Marks w) := inferInstanceAs (Decidable (_ ∨ _))

/-- The marks are unset if they are those of nobody. -/
theorem unmarked_iff : (l.minWriteWait = none ∧ l.maxWriteWait = none) ↔ ∀ w, ¬l.Marks w := by
  simp only [Marks, not_or, forall_and, Option.eq_none_iff_forall_ne_some]

/-- After a withdrawal the marks are those of other writers that had one before. -/
theorem Marks.of_withdraw (h : (l.withdraw requester).Marks w) : w ≠ requester ∧ l.Marks w := by
  simp only [Marks, withdraw] at h
  generalize hleast :
    (if l.minWriteWait = some requester then none else l.minWriteWait) = least at h
  have hother : ∀ v, least = some v → v ≠ requester ∧ l.minWriteWait = some v := by
    rintro v rfl
    split at hleast
    · cases hleast
    · rename_i hne
      exact ⟨fun heq => hne (heq ▸ hleast), hleast⟩
  rcases h with hmin | hmax
  · exact (hother w hmin).imp_right .inl
  · by_cases hnone : least.isNone
    · rw [if_pos hnone] at hmax
      cases hmax
    · rw [if_neg hnone] at hmax
      split at hmax
      · exact (hother w hmax).imp_right .inl
      · rename_i hne
        exact ⟨fun heq => hne (heq ▸ hmax), .inr hmax⟩

/-- Only the writer that is told to wait may get a mark. -/
theorem Marks.of_await (h : (l.await requester d).Marks w) : w = requester ∨ l.Marks w := by
  have hone : ∀ {f : Nat → Nat → Nat} {mark : Option Nat}, (∀ a b, f a b = a ∨ f a b = b) →
      some (mark.elim requester (f requester)) = some w → w = requester ∨ mark = some w := by
    intro f mark hf hw
    cases mark with
    | none => exact .inl (Option.some.inj hw).symm
    | some v =>
        rcases hf requester v with hl | hr
        · exact .inl ((Option.some.inj hw).symm.trans hl)
        · exact .inr (hr ▸ hw)
  simp only [Marks, await, lowered, raised] at h
  rcases h with hmin | hmax
  · cases d with
    | snapshot => exact (hone min_choice hmin).imp_right .inl
    | readCommitted =>
        cases hleast : l.minWriteWait with
        | none => exact .inl (by simpa [hleast] using hmin.symm)
        | some v => exact .inr (.inl (by simpa [hleast] using hmin))
  · exact (hone max_choice hmax).imp_right .inr

/-- An attempt of a reader, and one that is refused, leaves the marks alone. -/
theorem attempt_marks_iff (h : kind = .shared ∨ l.answer requester kind d = .refused) :
    (l.attempt requester kind d).2.Marks w ↔ l.Marks w := by
  have hattempted := l.attempted requester kind d
  rw [← attempt_fst] at h
  generalize l.attempt requester kind d = x at hattempted h
  cases hattempted with
  | first hfree =>
      obtain rfl : kind = .shared := h.resolve_right (by simp)
      obtain ⟨hmin, hmax⟩ := grant_marks_of_free hfree requester .shared
      simp only [Marks, hmin, hmax, reduceCtorEq, if_false]
  | beside _ => rfl
  | waits _ hkind => simp [hkind] at h
  | refused =>
      obtain ⟨hmin, hmax⟩ := l.turnAway_marks requester kind d
      simp only [Marks, hmin, hmax]

/-- A writer that finds the lock free loses its mark, and one that joins others keeps it. -/
theorem marks_of_granted (h : l.answer requester .exclusive d = .granted) :
    (l.holder = none ∧ (l.attempt requester .exclusive d).2.Marks = (l.withdraw requester).Marks) ∨
    (l.holder = some .exclusive ∧ (l.attempt requester .exclusive d).2.Marks = l.Marks) := by
  have hattempted := l.attempted requester .exclusive d
  rw [← attempt_fst] at h
  generalize l.attempt requester .exclusive d = x at hattempted h
  cases hattempted with
  | first hfree =>
      obtain ⟨hmin, hmax⟩ := grant_marks_of_free hfree requester .exclusive
      refine .inl ⟨hfree, funext fun w => ?_⟩
      simp only [Marks, hmin, hmax, if_true]
  | beside hheld => exact .inr ⟨hheld, rfl⟩
  | waits _ _ => cases h
  | refused => cases h

/-- A reader that meets readers is turned away only behind an older writer with the first mark. -/
theorem answer_shared_of_shared (h : l.holder = some .shared) (requester : Nat) (d : Discipline) :
    l.answer requester .shared d = .granted ↔ ∀ w, l.minWriteWait = some w → requester ≤ w := by
  simp only [answer, h]
  cases l.minWriteWait <;> simp

/-- A ledger with its pending writers. -/
structure Waitlist extends Ledger where
  /-- The writers that were told to wait, and neither granted the lock nor withdrawn since. -/
  pending : List Nat := []
  /-- The writers that were granted the lock beside others while they were marked, and neither
  granted it otherwise, told to wait nor withdrawn since. -/
  overlooked : List Nat := []
  deriving DecidableEq, Repr

namespace Waitlist

def take (g : Waitlist) (c : Call) : Waitlist :=
  match c with
  | .attempt requester .exclusive d =>
    match g.lock.answer requester .exclusive d with
    | .granted =>
      { toLedger := g.toLedger.take c
        pending := g.pending.filter (· ≠ requester)
        overlooked :=
          if g.held ≠ [] ∧ g.lock.Marks requester then requester :: g.overlooked
          else g.overlooked.filter (· ≠ requester) }
    | .wait =>
      { toLedger := g.toLedger.take c
        pending := requester :: g.pending
        overlooked := g.overlooked.filter (· ≠ requester) }
    | .refused => { g with toLedger := g.toLedger.take c }
  | .withdraw requester =>
    { toLedger := g.toLedger.take c
      pending := g.pending.filter (· ≠ requester)
      overlooked := g.overlooked.filter (· ≠ requester) }
  | _ => { g with toLedger := g.toLedger.take c }

/-- The waitlist of a lock that was never used, after some calls. -/
def run (calls : List Call) : Waitlist := calls.foldl take {}

variable {g : Waitlist}

@[simp] theorem take_toLedger (g : Waitlist) (c : Call) :
    (g.take c).toLedger = g.toLedger.take c := by
  unfold take
  split
  · split <;> rfl
  · rfl
  · rfl

/-- Whoever has a mark is pending or was overlooked. -/
structure Accounted (g : Waitlist) : Prop extends g.toLedger.Faithful where
  named : ∀ w, g.lock.Marks w → w ∈ g.pending ∨ w ∈ g.overlooked

theorem accounted_unused : ({} : Waitlist).Accounted where
  toFaithful := Ledger.faithful_unused
  named w hw := by simp [Marks] at hw

theorem Accounted.faithful_take (h : g.Accounted) (c : Call) : (g.take c).toLedger.Faithful := by
  rw [take_toLedger]
  exact h.toFaithful.take c

/-- Who had a mark and is another one is still accounted for. -/
theorem Accounted.others (h : g.Accounted) (hne : w ≠ requester) (hw : g.lock.Marks w) :
    w ∈ g.pending.filter (· ≠ requester) ∨ w ∈ g.overlooked.filter (· ≠ requester) := by
  simpa [List.mem_filter, hne] using h.named w hw

theorem Accounted.granted (h : g.Accounted)
    (hgranted : g.lock.answer requester .exclusive d = .granted) :
    (g.take (.attempt requester .exclusive d)).Accounted where
  toFaithful := h.faithful_take _
  named w hw := by
    rw [take_toLedger, Ledger.take_attempt_lock] at hw
    simp only [take, hgranted]
    rcases marks_of_granted hgranted with ⟨hfree, hmarks⟩ | ⟨hheld, hmarks⟩
    · rw [hmarks] at hw
      rw [if_neg (fun hjoined => hjoined.1 (h.toFaithful.free_iff.1 hfree))]
      exact h.others hw.of_withdraw.1 hw.of_withdraw.2
    · rw [hmarks] at hw
      have hne : g.held ≠ [] := by
        rw [ne_eq, ← h.toFaithful.free_iff, hheld]
        simp
      by_cases hrequester : w = requester
      · subst hrequester
        simp [hne, hw]
      · refine (h.others hrequester hw).imp_right fun hmem => ?_
        split
        · exact List.mem_cons_of_mem _ (List.mem_of_mem_filter hmem)
        · exact hmem

theorem Accounted.waits (h : g.Accounted)
    (hwait : g.lock.answer requester .exclusive d = .wait) :
    (g.take (.attempt requester .exclusive d)).Accounted where
  toFaithful := h.faithful_take _
  named w hw := by
    rw [take_toLedger, Ledger.take_attempt_lock] at hw
    have hawait : (g.lock.await requester d).Marks w := by
      simp only [attempt, hwait] at hw
      exact hw
    simp only [take, hwait]
    by_cases hrequester : w = requester
    · subst hrequester
      exact .inl List.mem_cons_self
    · exact (h.others hrequester (hawait.of_await.resolve_left hrequester)).imp_left
        fun hmem => List.mem_cons_of_mem _ (List.mem_of_mem_filter hmem)

/-- A call that leaves the waitlist alone gives no new mark. -/
theorem Accounted.kept (h : g.Accounted) {c : Call}
    (htake : g.take c = { g with toLedger := g.toLedger.take c })
    (hmarks : ∀ w, (g.toLedger.take c).lock.Marks w → g.lock.Marks w) : (g.take c).Accounted where
  toFaithful := h.faithful_take _
  named w hw := by
    rw [take_toLedger] at hw
    rw [htake]
    exact h.named w (hmarks w hw)

theorem Accounted.take (h : g.Accounted) (c : Call) : (g.take c).Accounted := by
  cases c with
  | attempt requester kind d =>
      cases kind with
      | shared =>
          refine h.kept rfl fun w hw => ?_
          rw [Ledger.take_attempt_lock] at hw
          exact (attempt_marks_iff (.inl rfl)).1 hw
      | exclusive =>
          cases hanswer : g.lock.answer requester .exclusive d with
          | granted => exact h.granted hanswer
          | wait => exact h.waits hanswer
          | refused =>
              refine h.kept (by simp only [Waitlist.take, hanswer]) fun w hw => ?_
              rw [Ledger.take_attempt_lock] at hw
              exact (attempt_marks_iff (.inr hanswer)).1 hw
  | release kind place =>
      refine h.kept rfl fun w hw => ?_
      obtain ⟨hmin, hmax⟩ := g.toLedger.take_release_marks kind place
      simpa only [Marks, hmin, hmax] using hw
  | withdraw requester =>
      refine ⟨h.faithful_take _, fun w hw => ?_⟩
      exact h.others (Marks.of_withdraw hw).1 (Marks.of_withdraw hw).2
  | updateVersion v => exact h.kept rfl fun _ hw => hw
  | observeVersion v => exact h.kept rfl fun _ hw => hw
  | advanceVersion => exact h.kept rfl fun _ hw => hw

theorem accounted_run (calls : List Call) : (run calls).Accounted :=
  List.foldlRecOn calls _ accounted_unused fun _ h c _ => h.take c

/-- A writer that is granted the lock has a mark afterwards if it joins others and had one before.
When nobody is pending the marks are unset if no overlooked writer has one, and a reader joins
readers if no older overlooked writer has the first. -/
theorem phantom_iff (calls : List Call) :
    let g := run calls
    (∀ requester d, g.lock.answer requester .exclusive d = .granted →
      ((g.lock.attempt requester .exclusive d).2.Marks requester ↔
        g.held ≠ [] ∧ g.lock.Marks requester)) ∧
    (g.pending = [] →
      ((g.lock.minWriteWait = none ∧ g.lock.maxWriteWait = none) ↔
        ∀ w ∈ g.overlooked, ¬g.lock.Marks w) ∧
      ∀ requester d, g.lock.holder = some .shared →
        (g.lock.answer requester .shared d = .granted ↔
          ∀ w ∈ g.overlooked, g.lock.minWriteWait = some w → requester ≤ w)) := by
  have h := accounted_run calls
  generalize run calls = g at h
  refine ⟨?_, fun hpending => ?_⟩
  · intro requester d hgranted
    rcases marks_of_granted hgranted with ⟨hfree, hmarks⟩ | ⟨hheld, hmarks⟩
    · rw [hmarks]
      exact iff_of_false (fun hw => hw.of_withdraw.1 rfl)
        fun hjoined => hjoined.1 (h.toFaithful.free_iff.1 hfree)
    · rw [hmarks, ne_eq, ← h.toFaithful.free_iff, hheld]
      simp
  · have hnamed : ∀ w, g.lock.Marks w → w ∈ g.overlooked := by
      intro w hw
      simpa [hpending] using h.named w hw
    constructor
    · rw [unmarked_iff]
      exact ⟨fun hnone w _ => hnone w, fun hnone w hw => hnone w (hnamed w hw) hw⟩
    · intro requester d hread
      rw [answer_shared_of_shared hread]
      exact ⟨fun hle w _ => hle w, fun hle w hw => hle w (hnamed w (.inl hw)) hw⟩

/-- A writer waits for a reader, joins another writer that came in between, and both are done. -/
def joined : List Call :=
  [.attempt 1 .shared .readCommitted, .attempt 2 .exclusive .readCommitted, .release .shared 0,
    .attempt 3 .exclusive .readCommitted, .attempt 2 .exclusive .readCommitted,
    .release .exclusive 0, .release .exclusive 0, .attempt 1 .shared .readCommitted]

/-- A writer keeps its mark when it is granted the lock, and turns readers away after it is
gone. -/
theorem joined_writer_stays_marked :
    let g := run (joined.take 4)
    let done := run joined
    (g.lock.answer 2 .exclusive .readCommitted = .granted ∧
      (g.lock.attempt 2 .exclusive .readCommitted).2.minWriteWait = some 2 ∧
      (g.lock.attempt 2 .exclusive .readCommitted).2.maxWriteWait = some 2) ∧
    done.pending = [] ∧ done.lock.minWriteWait = some 2 ∧ done.lock.holder = some .shared ∧
      done.lock.answer 4 .shared .readCommitted = .refused := by
  decide

theorem joined_phantom_iff :
    let g := run (joined.take 4)
    let done := run joined
    (g.lock.answer 2 .exclusive .readCommitted = .granted ∧
      ((g.lock.attempt 2 .exclusive .readCommitted).2.Marks 2 ↔ g.held ≠ [] ∧ g.lock.Marks 2)) ∧
    done.pending = [] ∧
      ((done.lock.minWriteWait = none ∧ done.lock.maxWriteWait = none) ↔
        ∀ w ∈ done.overlooked, ¬done.lock.Marks w) ∧
    done.lock.holder = some .shared ∧
      (done.lock.answer 4 .shared .readCommitted = .granted ↔
        ∀ w ∈ done.overlooked, done.lock.minWriteWait = some w → 4 ≤ w) := by
  have hgranted : (run (joined.take 4)).lock.answer 2 .exclusive .readCommitted = .granted := by
    decide
  have hpending : (run joined).pending = [] := by decide
  have hread : (run joined).lock.holder = some .shared := by decide
  obtain ⟨hmarks, hreaders⟩ := (phantom_iff joined).2 hpending
  exact ⟨⟨hgranted, (phantom_iff (joined.take 4)).1 2 .readCommitted hgranted⟩,
    hpending, hmarks, hread, hreaders 4 .readCommitted hread⟩

end Waitlist

end Lock

end LiveIsolation
