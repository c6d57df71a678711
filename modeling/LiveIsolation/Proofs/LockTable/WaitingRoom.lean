import LiveIsolation.LockTable.Waiter
import LiveIsolation.Proofs.LockTable.Releases

/-!
# Sleepers are woken

Any number of acquisitions wait beside one another, in steps of their own (`Waiter.step`), and
between any two of these others may call the lock table. A requester that cannot go on falls
asleep, and only its time or a release in the bucket of its row wakes it. It has read the number
of releases before its attempt, so that a release which came in between keeps it awake. A sleeper
therefore waits for readers that still hold its row, and no release has come to its bucket since
it read the number (`WaitingRoom.Posted`).

## Implementation notes

A step of a requester that is refused or gives up withdraws it at once. One in which others break
in before the withdrawal is an attempt and a withdrawal among the calls of the table. Holds are
counted without their holders, as in the lock table: a release that succeeds gives back one of
the holds that were granted.
-/

namespace LiveIsolation

namespace Waiter

def place (w : Waiter) : Place := (w.relation, w.key)

def request (w : Waiter) : LockRequest := ⟨w.relation, w.key, w.kind⟩

end Waiter

/-- What happens in a waiting room, as far as it has to be remembered. -/
inductive WaitEvent where
  /-- An acquisition has read the number of releases. -/
  | read (i : Nat)
  | attempted (i : Nat)
  | released (p : Place)
  deriving DecidableEq, Repr

/-- An acquisition, and whether its requester has fallen asleep. -/
structure Acquirer where
  waiter : Waiter
  asleep : Bool := false
  deriving DecidableEq, Repr

/-- A lock table with the acquisitions on it. -/
structure WaitingRoom where
  table : LockTable
  /-- The acquisitions in the order in which they began. -/
  acquirers : List Acquirer := []
  /-- What has been granted and has not been given back. -/
  granted : List LockRequest := []
  /-- What has happened, the latest first. -/
  past : List WaitEvent := []

inductive RoomTurn where
  /-- An acquisition begins. -/
  | enter (relation : String) (key : RowKey) (requester : Nat) (kind : LockKind)
    (discipline : Discipline)
  /-- A requester takes its next step, if it is awake. -/
  | step (i : Nat)
  /-- The time of a sleeper is up. -/
  | elapse (i : Nat)
  /-- Somebody calls the lock table. -/
  | call (c : LockCall)

namespace Waiter

/-- What the next step of a requester is to be remembered as. -/
def event? (w : Waiter) (i : Nat) : Option WaitEvent :=
  match w.phase with
  | .ready => some (.read i)
  | .read _ => some (.attempted i)
  | _ => none

/-- What a requester has been granted. -/
def grant? (w : Waiter) : Option LockRequest :=
  if w.phase = .ended .granted then some w.request else none

end Waiter

namespace WaitingRoom

/-- An acquisition begins if its relation is known. -/
def enter (r : WaitingRoom) (w : Waiter) : WaitingRoom :=
  if (r.table.find? w.relation).isSome then { r with acquirers := r.acquirers ++ [{ waiter := w }] }
  else r

/-- A requester that is awake takes its next step. One that has to wait falls asleep. -/
def step (r : WaitingRoom) (i : Nat) : WaitingRoom :=
  match r.acquirers[i]? with
  | some ⟨w, false⟩ =>
    match w.step r.table with
    | some (w', t) =>
      { table := t
        acquirers := r.acquirers.set i ⟨w', false⟩
        granted := w'.grant?.toList ++ r.granted
        past := (w.event? i).toList ++ r.past }
    | none => { r with acquirers := r.acquirers.set i ⟨w, w.outcome?.isNone⟩ }
  | _ => r

def elapse (r : WaitingRoom) (i : Nat) : WaitingRoom :=
  match r.acquirers[i]? with
  | some a => { r with acquirers := r.acquirers.set i ⟨a.waiter.elapse, false⟩ }
  | none => r

/-- A release wakes those who sleep in its bucket. -/
def wake (t : LockTable) (p : Place) (a : Acquirer) : Acquirer :=
  if t.SameBucket a.waiter.place p then { a with asleep := false } else a

def call (r : WaitingRoom) (c : LockCall) : WaitingRoom :=
  match c.op.returned?, r.table.serve c with
  | some kind, (.ok _, t) =>
    { table := t
      acquirers := r.acquirers.map (wake r.table c.place)
      granted := r.granted.erase (c.request kind)
      past := .released c.place :: r.past }
  | some _, (.error _, t) => { r with table := t }
  | none, (reply, t) =>
    { r with
      table := t
      granted := ((reply.toOption.bind c.op.granted?).map fun g => c.request g.2).toList ++
        r.granted }

def turn (r : WaitingRoom) : RoomTurn → WaitingRoom
  | .enter relation key requester kind discipline =>
    r.enter { relation, key, requester, kind, discipline }
  | .step i => r.step i
  | .elapse i => r.elapse i
  | .call c => r.call c

/-- The room after some turns. -/
def through (r : WaitingRoom) (turns : List RoomTurn) : WaitingRoom := turns.foldl turn r

/-- What has happened since an acquisition last read the number of releases. -/
def since (r : WaitingRoom) (i : Nat) : List WaitEvent := r.past.takeWhile (· != .read i)

/-- No requester can go on by itself: each of them sleeps or has ended. -/
def AtRest (r : WaitingRoom) : Prop :=
  ∀ a ∈ r.acquirers, a.asleep = true ∨ a.waiter.outcome?.isSome = true

instance (r : WaitingRoom) : Decidable r.AtRest :=
  inferInstanceAs (Decidable (∀ a ∈ r.acquirers, _))

/-- A row is held by readers. -/
def Reading (r : WaitingRoom) (p : Place) : Prop := ∃ n, r.table.hold? p = some (.shared, n + 1)

variable {r r' : WaitingRoom} {known : List String} {i : Nat} {w : Waiter} {p : Place} {g : Nat}

/-- An acquisition has read a number of releases and has made some attempts since. If the number
has not moved, then no release has come to the bucket of its row since. -/
structure Watches (r : WaitingRoom) (i : Nat) (p : Place) (g attempts : Nat) : Prop where
  read : .read i ∈ r.past
  attempts : (r.since i).count (.attempted i) = attempts
  le : g ≤ r.table.releases p
  unsignalled : r.table.releases p = g →
    ∀ q, .released q ∈ r.since i → ¬r.table.SameBucket p q

/-- What is known about an acquisition by how far it has come. -/
def Posted (r : WaitingRoom) (i : Nat) (w : Waiter) : Prop :=
  match w.phase with
  | .ready => True
  | .read g => r.Watches i w.place g 0
  | .waiting g =>
    r.Watches i w.place g 1 ∧
      (r.table.releases w.place = g → w.kind = .exclusive ∧ r.Reading w.place)
  | .ended _ => True

/-- A requester sleeps only as long as the number of releases is the one that it has read. -/
def Rests (r : WaitingRoom) (a : Acquirer) : Prop :=
  a.asleep = true → ∃ g, a.waiter.phase = .waiting g ∧ r.table.releases a.waiter.place = g

/-- Every lock counts the holds that were granted on it, and every acquisition is where what has
happened puts it. -/
structure Attended (r : WaitingRoom) : Prop where
  whole : r.table.Whole []
  balance : ∀ q, r.table.holders q = r.granted.count q
  known : ∀ a ∈ r.acquirers, (r.table.find? a.waiter.relation).isSome = true
  posted : ∀ i a, r.acquirers[i]? = some a → r.Posted i a.waiter
  rests : ∀ a ∈ r.acquirers, r.Rests a

/-- What happens beside an acquisition on a row: it neither reads nor attempts, and as long as the
number of releases stays, no release comes to the bucket of the row, and its readers go on. -/
structure Passes (r r' : WaitingRoom) (i : Nat) (p : Place) : Prop where
  config : r'.table.config = r.table.config
  le : r.table.releases p ≤ r'.table.releases p
  past : ∃ events, r'.past = events ++ r.past ∧
    (∀ e ∈ events, e ≠ .read i ∧ e ≠ .attempted i) ∧
    (r'.table.releases p = r.table.releases p →
      ∀ q, .released q ∈ events → ¬r.table.SameBucket p q)
  reading : r'.table.releases p = r.table.releases p → r.Reading p → r'.Reading p

theorem since_append {events : List WaitEvent} (hpast : r'.past = events ++ r.past)
    (h : ∀ e ∈ events, e ≠ .read i) : r'.since i = events ++ r.since i := by
  rw [since, since, hpast]
  exact List.takeWhile_append_of_pos fun e he => bne_iff_ne.2 (h e he)

theorem Watches.passes {attempts : Nat} (h : r.Watches i p g attempts) (hp : r.Passes r' i p) :
    r'.Watches i p g attempts := by
  obtain ⟨events, hpast, hapart, hquiet⟩ := hp.past
  have hsince := since_append hpast fun e he => (hapart e he).1
  refine ⟨?_, ?_, h.le.trans hp.le, ?_⟩
  · rw [hpast]
    exact List.mem_append_right events h.read
  · have hnone : events.count (.attempted i) = 0 :=
      List.count_eq_zero.2 fun hmem => (hapart _ hmem).2 rfl
    rw [hsince, List.count_append, hnone, Nat.zero_add, h.attempts]
  · intro hsame q hq
    have hle := h.le
    have hle' := hp.le
    have hbefore : r.table.releases p = g := by omega
    have hbucket : r'.table.SameBucket p q ↔ r.table.SameBucket p q := by
      rw [LockTable.SameBucket, LockTable.SameBucket, hp.config]
    rw [hbucket]
    rw [hsince] at hq
    rcases List.mem_append.1 hq with hq | hq
    · exact hquiet (hsame.trans hbefore.symm) q hq
    · exact h.unsignalled hbefore q hq

theorem Posted.passes (h : r.Posted i w) (hp : r.Passes r' i w.place) : r'.Posted i w := by
  unfold Posted at h ⊢
  cases hphase : w.phase with
  | ready => trivial
  | ended outcome => trivial
  | read g =>
      rw [hphase] at h
      exact Watches.passes h hp
  | waiting g =>
      rw [hphase] at h
      obtain ⟨hwatches, hreading⟩ := h
      refine ⟨hwatches.passes hp, fun hsame => ?_⟩
      have hle := hwatches.le
      have hle' := hp.le
      have hbefore : r.table.releases w.place = g := by omega
      obtain ⟨hkind, hheld⟩ := hreading hbefore
      exact ⟨hkind, hp.reading (hsame.trans hbefore.symm) hheld⟩

/-- Where nothing is given back, all that happens is that others read or attempt. -/
theorem passes_quiet (hquiet : r.table.Quiet r'.table) {events : List WaitEvent}
    (hpast : r'.past = events ++ r.past) (h : ∀ e ∈ events, e ≠ .read i ∧ e ≠ .attempted i)
    (hreleased : ∀ q, .released q ∉ events) (p : Place) : r.Passes r' i p where
  config := hquiet.config
  le := (congrFun hquiet.releases p).ge
  past := ⟨events, hpast, h, fun _ q hq => absurd hq (hreleased q)⟩
  reading := fun _ ⟨n, hn⟩ => hquiet.reading p n hn

end WaitingRoom

namespace LockTable

variable {t t' : LockTable} {known : List String} {w : Waiter}

/-- What an attempt of an acquisition makes of a table: no outcome means that it waits, and then it
is a writer behind readers. -/
structure Tried (t : LockTable) (q : LockRequest) (outcome : Option AcquireOutcome)
    (t' : LockTable) : Prop where
  whole : t'.Whole []
  quiet : t.Quiet t'
  known : ∀ relation, (t'.find? relation).isSome = (t.find? relation).isSome
  holders : ∀ x, t'.holders x =
    t.holders x + if outcome = some .granted ∧ x = q then 1 else 0
  waits : outcome = none → q.kind = .exclusive ∧ ∃ n, t'.hold? q.place = some (.shared, n + 1)

theorem Whole.tried (h : t.Whole []) (q : LockRequest) {r : RelationLocks}
    (hr : t.find? q.relation = some r) (requester : Nat) (d : Discipline) (left : Nat) :
    t.Tried q (r.tryOnce t.config q.key requester q.kind d left).1
      (t.put q.relation (r.tryOnce t.config q.key requester q.kind d left).2) := by
  have hplace : r.lockAt q.key = t.lockAt q.place := (lockAt_of_find? (p := q.place) hr).symm
  have hmirrors := (h.sane _ r hr).mirrors_tryOnce t.config q.key requester q.kind d left
  have hreleases := r.releases_tryOnce t.config q.key requester q.kind d left
  rw [hplace] at hmirrors
  generalize r.tryOnce t.config q.key requester q.kind d left = x at hmirrors hreleases ⊢
  have hshows := h.shows_plain.put (p := q.place) hr hmirrors
  have hasked := (t.lockAt q.place).asked_tryOnce requester q.kind d left
  have hreading : ((t.lockAt q.place).tryOnce requester q.kind d left).1 = none →
      q.kind = .exclusive ∧ (t.lockAt q.place).holder = some .shared := Lock.reading_of_waits
  obtain ⟨outcome, s⟩ := x
  generalize (t.lockAt q.place).tryOnce requester q.kind d left = y at *
  obtain ⟨answer, l⟩ := y
  obtain rfl : outcome = answer := hmirrors.answer
  have hlock : (t.put q.relation s).lockAt = Function.update t.lockAt q.place l := hshows.locks
  have hhold := (views_of_update hlock).1
  have hwhole : (t.put q.relation s).Whole [] := by
    refine ⟨nofun, hshows.sane, fun p => ?_⟩
    rw [hlock, Function.update_apply]
    split
    · exact hasked.counted (h.counted q.place)
    · exact h.counted p
  have hknown : ∀ relation, ((t.put q.relation s).find? relation).isSome =
      (t.find? relation).isSome := by
    intro relation
    rw [find?_put]
    split
    · rename_i hname
      rw [hname, hr]
      rfl
    · rfl
  cases hasked with
  | granted _ hjoined hkind _ =>
      rw [hjoined] at hhold
      refine ⟨hwhole, ⟨rfl, releases_put hr hreleases, ?_⟩, hknown, ?_, nofun⟩
      · exact fun p n hp => reading_of_joined hhold hkind hp
      · intro x
        rw [holders_of_joined hhold hkind x]
        simp
  | denied _ hne _ hsame _ =>
      have hviews : (t.put q.relation s).hold? = t.hold? :=
        (hsame ▸ hhold).trans (Function.update_eq_self q.place t.hold?)
      refine ⟨hwhole, ⟨rfl, releases_put hr hreleases, ?_⟩, hknown, ?_, ?_⟩
      · exact fun p n hp => ⟨n, hviews ▸ hp⟩
      · intro x
        rw [holders_congr hviews, if_neg fun hx => hne hx.1, Nat.add_zero]
      · intro hnone
        obtain ⟨hkind, hholder⟩ := hreading hnone
        refine ⟨hkind, ?_⟩
        have hheld : t.hold? q.place = some (.shared, (t.lockAt q.place).count) := by
          simp [hold?, Lock.hold?, hholder]
        obtain ⟨n, hn⟩ := Nat.exists_eq_succ_of_ne_zero (h.counted q.place _ _ hheld)
        exact ⟨n, by rw [hviews, hheld, hn]⟩

/-- The next step of an acquisition. -/
inductive Stepped (t : LockTable) (w : Waiter) : Option (Waiter × LockTable) → Prop where
  | reads (hphase : w.phase = .ready) :
    Stepped t w (some ({ w with phase := .read (t.releases w.place) }, t))
  | ends (g : Nat) (hphase : w.phase = .read g) (outcome : AcquireOutcome) (t' : LockTable)
    (htried : t.Tried w.request (some outcome) t') :
    Stepped t w (some ({ w with phase := .ended outcome }, t'))
  | waits (g : Nat) (hphase : w.phase = .read g) (t' : LockTable)
    (htried : t.Tried w.request none t') :
    Stepped t w (some ({ w with waits := w.waits + 1, phase := .waiting g }, t'))
  | again (g : Nat) (hphase : w.phase = .waiting g) (hmoved : t.releases w.place ≠ g) :
    Stepped t w (some ({ w with phase := .ready }, t))
  | sleeps (g : Nat) (hphase : w.phase = .waiting g) (hsame : t.releases w.place = g) :
    Stepped t w none
  | ended (outcome : AcquireOutcome) (hphase : w.phase = .ended outcome) : Stepped t w none

theorem Whole.stepped (h : t.Whole []) (hknown : (t.find? w.relation).isSome = true) :
    t.Stepped w (w.step t) := by
  obtain ⟨r, hr⟩ := Option.isSome_iff_exists.1 hknown
  have hreleases : r.generation t.config w.key = t.releases w.place :=
    (releases_of_find? (p := w.place) hr).symm
  simp only [Waiter.step, hr]
  cases hphase : w.phase with
  | ready =>
      dsimp only
      rw [hreleases]
      exact .reads hphase
  | read g =>
      have htried := h.tried w.request hr w.requester w.discipline
        (t.config.wait.retries - w.waits)
      simp only [Waiter.request] at htried
      dsimp only
      generalize r.tryOnce t.config w.key w.requester w.kind w.discipline
        (t.config.wait.retries - w.waits) = x at htried
      obtain ⟨outcome, s⟩ := x
      cases outcome with
      | some outcome => exact .ends g hphase outcome _ htried
      | none => exact .waits g hphase _ htried
  | waiting g =>
      dsimp only
      rw [hreleases]
      split
      · rename_i hsame
        exact .sleeps g hphase hsame
      · rename_i hmoved
        exact .again g hphase hmoved
  | ended outcome => exact .ended outcome hphase

/-- Relations stay known, whatever a table is asked. -/
theorem Whole.known_serve (h : t.Whole known) (c : LockCall) {relation : String}
    (hr : (t.find? relation).isSome = true) : ((t.serve c).2.find? relation).isSome = true := by
  obtain ⟨r, hr⟩ := Option.isSome_iff_exists.1 hr
  exact Option.isSome_iff_exists.2 (((h.single hr).serve c).knows relation List.mem_cons_self)

end LockTable

namespace WaitingRoom

variable {r r' : WaitingRoom} {i g : Nat} {w : Waiter} {p : Place} {a a' : Acquirer}

theorem Rests.congr (h : r.Rests a)
    (hreleases : r'.table.releases a.waiter.place = r.table.releases a.waiter.place) :
    r'.Rests a := by
  intro hasleep
  obtain ⟨g, hphase, hsame⟩ := h hasleep
  exact ⟨g, hphase, hreleases.trans hsame⟩

/-- An acquisition on which nothing has happened is where it was. -/
theorem Posted.quiet (h : r.Posted i w) (hquiet : r.table.Quiet r'.table)
    (hpast : r'.past = r.past) : r'.Posted i w := by
  have hsame : r'.past = [] ++ r.past := hpast
  exact h.passes (passes_quiet hquiet hsame nofun nofun _)

section Going
variable {t : LockTable} {granted : List LockRequest} {events : List WaitEvent}

/-- One acquisition goes on, and nothing is given back. -/
theorem Attended.set (h : r.Attended) (ha : r.acquirers[i]? = some a)
    (hr' : (⟨t, r.acquirers.set i a', granted, events ++ r.past⟩ : WaitingRoom) = r')
    (hrelation : a'.waiter.relation = a.waiter.relation) (hwhole : t.Whole [])
    (hquiet : r.table.Quiet t)
    (hknown : ∀ relation, (t.find? relation).isSome = (r.table.find? relation).isSome)
    (hbalance : ∀ q, t.holders q = granted.count q)
    (hevents : ∀ e ∈ events, e = .read i ∨ e = .attempted i)
    (hposted : r'.Posted i a'.waiter) (hrests : r'.Rests a') : r'.Attended := by
  subst hr'
  refine ⟨hwhole, hbalance, ?_, ?_, ?_⟩
  · intro b hb
    rw [hknown]
    rcases List.mem_or_eq_of_mem_set hb with hb | rfl
    · exact h.known b hb
    · rw [hrelation]
      exact h.known a (List.mem_of_getElem? ha)
  · intro j b hb
    rw [List.getElem?_set] at hb
    split at hb
    · rename_i hj
      subst hj
      split at hb
      · rw [← Option.some.inj hb]
        exact hposted
      · cases hb
    · rename_i hj
      refine (h.posted j b hb).passes (passes_quiet hquiet rfl ?_ ?_ _)
      · intro e he
        rcases hevents e he with rfl | rfl
        · exact ⟨fun hi => hj (WaitEvent.read.inj hi), nofun⟩
        · exact ⟨nofun, fun hi => hj (WaitEvent.attempted.inj hi)⟩
      · intro q hq
        rcases hevents _ hq with hq | hq
        · cases hq
        · cases hq
  · intro b hb
    rcases List.mem_or_eq_of_mem_set hb with hb | rfl
    · exact (h.rests b hb).congr (congrFun hquiet.releases _)
    · exact hrests

/-- One acquisition goes on, and the table is left alone. -/
theorem Attended.set_aside (h : r.Attended) (ha : r.acquirers[i]? = some a)
    (hr' : (⟨r.table, r.acquirers.set i a', r.granted, events ++ r.past⟩ : WaitingRoom) = r')
    (hrelation : a'.waiter.relation = a.waiter.relation)
    (hevents : ∀ e ∈ events, e = .read i ∨ e = .attempted i)
    (hposted : r'.Posted i a'.waiter) (hrests : r'.Rests a') : r'.Attended :=
  h.set ha hr' hrelation h.whole (.refl _) (fun _ => rfl) h.balance hevents hposted hrests

/-- Nothing happens that has to be remembered. -/
theorem Attended.set_still (h : r.Attended) (ha : r.acquirers[i]? = some a)
    (hrelation : a'.waiter.relation = a.waiter.relation) (hposted : r.Posted i a'.waiter)
    (hrests : r.Rests a') : Attended { r with acquirers := r.acquirers.set i a' } := by
  have hr' : (⟨r.table, r.acquirers.set i a', r.granted, [] ++ r.past⟩ : WaitingRoom) =
      { r with acquirers := r.acquirers.set i a' } := rfl
  exact h.set_aside ha hr' hrelation nofun (hposted.quiet (.refl _) rfl) (hrests.congr rfl)

end Going

theorem Attended.enter (h : r.Attended) (hphase : w.phase = .ready) : (r.enter w).Attended := by
  unfold WaitingRoom.enter
  split
  · rename_i hknown
    refine ⟨h.whole, h.balance, ?_, ?_, ?_⟩
    · intro b hb
      rcases List.mem_append.1 hb with hb | hb
      · exact h.known b hb
      · rw [List.mem_singleton.1 hb]
        exact hknown
    · intro j b hb
      rcases lt_or_ge j r.acquirers.length with hj | hj
      · rw [List.getElem?_append_left hj] at hb
        exact (h.posted j b hb).quiet (.refl _) rfl
      · rw [List.getElem?_append_right hj] at hb
        have hnew := List.mem_of_getElem? hb
        rw [List.mem_singleton.1 hnew, Posted, hphase]
        trivial
    · intro b hb
      rcases List.mem_append.1 hb with hb | hb
      · exact (h.rests b hb).congr rfl
      · rw [List.mem_singleton.1 hb]
        exact nofun
  · exact h

/-- A requester that has just read the number of releases has missed nothing. -/
theorem watches_read (hpast : r'.past = .read i :: r.past) (hg : r'.table.releases p = g) :
    r'.Watches i p g 0 := by
  have hsince : r'.since i = [] := by simp [since, hpast]
  refine ⟨?_, ?_, hg.ge, ?_⟩
  · rw [hpast]
    exact List.mem_cons_self
  · rw [hsince]
    rfl
  · intro _ q hq
    rw [hsince] at hq
    cases hq

/-- An attempt follows the reading. -/
theorem Watches.attempted (h : r.Watches i p g 0) (hpast : r'.past = .attempted i :: r.past)
    (hquiet : r.table.Quiet r'.table) : r'.Watches i p g 1 := by
  have hsince : r'.since i = .attempted i :: r.since i := by simp [since, hpast]
  refine ⟨?_, ?_, ?_, ?_⟩
  · rw [hpast]
    exact List.mem_cons_of_mem _ h.read
  · rw [hsince, List.count_cons_self, h.attempts]
  · rw [hquiet.releases]
    exact h.le
  · intro hsame q hq
    rw [hquiet.releases] at hsame
    rw [hsince, List.mem_cons, or_iff_right nofun] at hq
    rw [LockTable.SameBucket, hquiet.config]
    exact h.unsignalled hsame q hq

/-- What an attempt is granted is counted. -/
theorem Attended.balance_tried (h : r.Attended) {outcome : Option AcquireOutcome} {t : LockTable}
    (htried : r.table.Tried w.request outcome t) (q : LockRequest) :
    t.holders q =
      ((if outcome = some .granted then some w.request else none).toList ++ r.granted).count q := by
  rw [htried.holders, h.balance, List.count_append, Nat.add_comm]
  congr 1
  by_cases ho : outcome = some .granted
  · simp only [ho, true_and, if_true, Option.toList_some, List.count_singleton, beq_iff_eq]
    exact if_congr eq_comm rfl rfl
  · simp [ho]

theorem Attended.step (h : r.Attended) (i : Nat) : (r.step i).Attended := by
  unfold WaitingRoom.step
  split
  · rename_i w hw
    have hnow : r.Posted i w := h.posted i _ hw
    have hposted := hnow
    have hstepped : r.table.Stepped w (w.step r.table) :=
      h.whole.stepped (h.known _ (List.mem_of_getElem? hw))
    generalize w.step r.table = x at hstepped
    unfold Posted at hposted
    cases hstepped with
    | reads hphase =>
        have hevent : w.event? i = some (.read i) := by simp [Waiter.event?, hphase]
        dsimp only
        rw [hevent]
        exact h.set_aside hw rfl rfl (by simp) (watches_read rfl rfl) nofun
    | ends g hphase outcome t' htried =>
        have hevent : w.event? i = some (.attempted i) := by simp [Waiter.event?, hphase]
        have hbalance := h.balance_tried htried
        dsimp only
        rw [hevent]
        refine h.set hw rfl rfl htried.whole htried.quiet htried.known ?_ (by simp) trivial nofun
        simpa [Waiter.grant?, Waiter.request] using hbalance
    | waits g hphase t' htried =>
        have hevent : w.event? i = some (.attempted i) := by simp [Waiter.event?, hphase]
        rw [hphase] at hposted
        dsimp only
        rw [hevent]
        refine h.set hw rfl rfl htried.whole htried.quiet htried.known (h.balance_tried htried)
          (by simp) ?_ nofun
        exact ⟨hposted.attempted rfl htried.quiet, fun _ => htried.waits rfl⟩
    | again g hphase hmoved =>
        have hevent : w.event? i = none := by simp [Waiter.event?, hphase]
        dsimp only
        rw [hevent]
        exact h.set_aside hw rfl rfl (by simp) trivial nofun
    | sleeps g hphase hsame =>
        exact h.set_still hw rfl hnow fun _ => ⟨g, hphase, hsame⟩
    | ended outcome hphase =>
        refine h.set_still hw rfl hnow fun hasleep => ?_
        simp [Waiter.outcome?, hphase] at hasleep
  · exact h

theorem Attended.elapse (h : r.Attended) (i : Nat) : (r.elapse i).Attended := by
  unfold WaitingRoom.elapse
  split
  · rename_i a ha
    have hposted := h.posted i a ha
    have hrelation : a.waiter.elapse.relation = a.waiter.relation := by
      unfold Waiter.elapse
      split
      · rfl
      · rfl
    refine h.set_still ha hrelation ?_ nofun
    unfold Waiter.elapse
    split
    · trivial
    · exact hposted
  · exact h

/-- A release passes those who do not wait in its bucket, and moves the number of the others. -/
theorem passes_released {t : LockTable} {q : LockRequest} (hconfig : t.config = r.table.config)
    (hreleases : ∀ p, t.releases p =
      r.table.releases p + if r.table.SameBucket p q.place then 1 else 0)
    (hhold : ∀ p, p ≠ q.place → t.hold? p = r.table.hold? p) (htable : r'.table = t)
    (hpast : r'.past = .released q.place :: r.past) (i : Nat) (p : Place) : r.Passes r' i p := by
  have happart : t.releases p = r.table.releases p → ¬r.table.SameBucket p q.place := by
    intro hsame hbucket
    rw [hreleases, if_pos hbucket] at hsame
    omega
  refine ⟨htable ▸ hconfig, ?_, ⟨[.released q.place], hpast, by simp, ?_⟩, ?_⟩
  · rw [htable, hreleases]
    exact Nat.le_add_right _ _
  · intro hsame x hx
    obtain rfl := WaitEvent.released.inj (List.mem_singleton.1 hx)
    exact happart (htable ▸ hsame)
  · rintro hsame ⟨n, hn⟩
    have hne : p ≠ q.place := by
      rintro rfl
      exact happart (htable ▸ hsame) ⟨rfl, rfl⟩
    exact ⟨n, by rw [htable, hhold p hne, hn]⟩

@[simp] theorem wake_waiter (t : LockTable) (p : Place) (a : Acquirer) :
    (wake t p a).waiter = a.waiter := by
  unfold wake
  split
  · rfl
  · rfl

/-- Who still sleeps after a release has slept before, and in another bucket. -/
theorem asleep_wake {t : LockTable} (h : (wake t p a).asleep = true) :
    a.asleep = true ∧ ¬t.SameBucket a.waiter.place p := by
  unfold wake at h
  split at h
  · cases h
  · rename_i hbucket
    exact ⟨h, hbucket⟩

/-- A call that gives nothing back. -/
theorem Attended.served (h : r.Attended) {c : LockCall} (hreturned : c.op.returned? = none) :
    Attended { r with
      table := (r.table.serve c).2
      granted := (((r.table.serve c).1.toOption.bind c.op.granted?).map fun g =>
        c.request g.2).toList ++ r.granted } := by
  have hquiet := h.whole.quiet_serve hreturned
  refine ⟨h.whole.serve c, fun q => ?_, ?_, ?_, ?_⟩
  · rw [h.whole.holders_serve hreturned, h.balance, List.count_append, Nat.add_comm]
    congr 1
    cases (r.table.serve c).1.toOption.bind c.op.granted? with
    | none => rfl
    | some g =>
        simp only [Option.map_some, Option.toList_some, Option.elim_some, List.count_singleton,
          beq_iff_eq]
        exact if_congr eq_comm rfl rfl
  · exact fun a ha => h.whole.known_serve c (h.known a ha)
  · exact fun j a ha => (h.posted j a ha).quiet hquiet rfl
  · exact fun a ha => (h.rests a ha).congr (congrFun hquiet.releases _)

/-- A hold is given back, and those who sleep in its bucket are woken. -/
theorem Attended.gaveBack (h : r.Attended) {c : LockCall} {kind : LockKind}
    (hreturned : c.op.returned? = some kind) {reply : LockReply} {t : LockTable}
    (hserve : r.table.serve c = (.ok reply, t)) :
    Attended {
      table := t
      acquirers := r.acquirers.map (wake r.table c.place)
      granted := r.granted.erase (c.request kind)
      past := .released c.place :: r.past } := by
  have hdone := h.whole.returned_serve hreturned
  have hwhole := h.whole.serve c
  have hknown : ∀ relation, (r.table.find? relation).isSome = true →
      ((r.table.serve c).2.find? relation).isSome = true := fun _ => h.whole.known_serve c
  have hleft := fun hheld => h.whole.holders_return hreturned hheld
  rw [hserve] at hdone hwhole hknown hleft
  cases hdone with
  | done _ _ hheld hconfig hreleases hhold =>
      refine ⟨hwhole, fun q => ?_, ?_, ?_, ?_⟩
      · have hone := hleft hheld q
        rw [h.balance] at hone
        rw [List.count_erase]
        by_cases hq : q = c.request kind
        · subst hq
          simp only [if_true, beq_self_eq_true] at hone ⊢
          omega
        · have hb : (c.request kind == q) = false := beq_eq_false_iff_ne.2 (Ne.symm hq)
          simp only [if_neg hq, hb] at hone ⊢
          simpa using hone
      · intro a ha
        obtain ⟨b, hb, rfl⟩ := List.mem_map.1 ha
        rw [wake_waiter]
        exact hknown _ (h.known b hb)
      · intro j a ha
        rw [List.getElem?_map, Option.map_eq_some_iff] at ha
        obtain ⟨b, hb, rfl⟩ := ha
        rw [wake_waiter]
        exact (h.posted j b hb).passes
          (passes_released (q := c.request kind) hconfig hreleases hhold rfl rfl j _)
      · intro a ha hasleep
        obtain ⟨b, hb, rfl⟩ := List.mem_map.1 ha
        obtain ⟨hslept, hbucket⟩ := asleep_wake hasleep
        obtain ⟨g, hphase, hsame⟩ := h.rests b hb hslept
        rw [wake_waiter]
        refine ⟨g, hphase, ?_⟩
        dsimp only
        rw [hreleases, hsame]
        exact congrArg (g + ·) (if_neg hbucket)

theorem Attended.call (h : r.Attended) (c : LockCall) : (r.call c).Attended := by
  cases hreturned : c.op.returned? with
  | none =>
      have hserved := h.served hreturned
      simp only [WaitingRoom.call, hreturned]
      exact hserved
  | some kind =>
      have hdone := h.whole.returned_serve hreturned
      cases hserve : r.table.serve c with
      | mk reply t =>
          simp only [WaitingRoom.call, hreturned, hserve]
          cases reply with
          | ok reply => exact h.gaveBack hreturned hserve
          | error f =>
              rw [hserve] at hdone
              cases hdone
              exact h

theorem Attended.turn (h : r.Attended) (m : RoomTurn) : (r.turn m).Attended := by
  cases m with
  | enter relation key requester kind discipline => exact h.enter rfl
  | step i => exact h.step i
  | elapse i => exact h.elapse i
  | call c => exact h.call c

theorem Attended.through (h : r.Attended) (turns : List RoomTurn) :
    (r.through turns).Attended :=
  List.foldlRecOn turns _ h fun _ h m _ => h.turn m

theorem attended_create {relations : List String} {config : LockTableConfig} {t : LockTable}
    (h : LockTable.create relations config = .ok t) : Attended { table := t } where
  whole := by
    have hwhole := LockTable.whole_create h
    exact ⟨nofun, hwhole.sane, hwhole.counted⟩
  balance q := by
    rw [LockTable.holders, (LockTable.create_eq_ok h).2.1 q.place]
    rfl
  known := nofun
  posted := nofun
  rests := nofun

/-- What is known about a sleeper. -/
theorem Attended.asleep (h : r.Attended) (ha : r.acquirers[i]? = some a)
    (hasleep : a.asleep = true) :
    a.waiter.kind = .exclusive ∧ r.Reading a.waiter.place ∧
      ∃ g, r.Watches i a.waiter.place g 1 ∧ r.table.releases a.waiter.place = g := by
  obtain ⟨g, hphase, hsame⟩ := h.rests a (List.mem_of_getElem? ha) hasleep
  have hposted := h.posted i a ha
  rw [Posted, hphase] at hposted
  obtain ⟨hkind, hreading⟩ := hposted.2 hsame
  exact ⟨hkind, hreading, g, hposted.1, hsame⟩

/-- Where nobody has a hold of a row, nobody reads it. -/
theorem Attended.not_reading (h : r.Attended)
    (hfree : ∀ kind, (⟨p.1, p.2, kind⟩ : LockRequest) ∉ r.granted) : ¬r.Reading p := by
  rintro ⟨n, hn⟩
  have hcount : r.table.holders ⟨p.1, p.2, .shared⟩ = n + 1 := by
    simp [LockTable.holders, LockRequest.place, hn]
  rw [h.balance, List.count_eq_zero.2 (hfree .shared)] at hcount
  omega

/-- Any number of acquisitions on one lock table go on in steps of their own, beside any calls of
the table. One that sleeps wants to write a row that readers still hold. It has made one attempt
since it last read the number of releases, and no release has come to the bucket of its row since.
So when all that was granted on a row has been given back, and nobody can go on by himself, every
acquisition on the row has ended. -/
theorem sleeper_not_forgotten {relations : List String} {config : LockTableConfig} {t : LockTable}
    (hcreate : LockTable.create relations config = .ok t) {turns : List RoomTurn}
    (hr : ({ table := t } : WaitingRoom).through turns = r) :
    (∀ i a, r.acquirers[i]? = some a → a.asleep = true →
      a.waiter.kind = .exclusive ∧ r.Reading a.waiter.place ∧
        .read i ∈ r.past ∧ (r.since i).count (.attempted i) = 1 ∧
        ∀ q, .released q ∈ r.since i → ¬r.table.SameBucket a.waiter.place q) ∧
      ∀ p, (∀ kind, (⟨p.1, p.2, kind⟩ : LockRequest) ∉ r.granted) → r.AtRest →
        ∀ a ∈ r.acquirers, a.waiter.place = p → a.waiter.outcome?.isSome = true := by
  have hattended : r.Attended := hr ▸ (attended_create hcreate).through turns
  constructor
  · intro i a ha hasleep
    obtain ⟨hkind, hreading, g, hwatches, hsame⟩ := hattended.asleep ha hasleep
    exact ⟨hkind, hreading, hwatches.read, hwatches.attempts, hwatches.unsignalled hsame⟩
  · intro p hfree hrest a ha hp
    rcases hrest a ha with hasleep | hended
    · obtain ⟨i, hi⟩ := List.getElem?_of_mem ha
      have hreading := (hattended.asleep hi hasleep).2.1
      rw [hp] at hreading
      exact absurd hreading (hattended.not_reading hfree)
    · exact hended

/-- A table for the rows of one relation, all in one bucket. -/
def oneBucket : LockTable := { config := { buckets := 1 }, relations := [("x", {})] }

/-- Two readers hold the rows 1 and 2. A writer of the row 1 has read the number of releases when
the row 2 is given back, so that it makes another attempt before it falls asleep. -/
def fallAsleep : List RoomTurn :=
  [.call ⟨"x", 1, .attempt 1 .shared .snapshot⟩, .call ⟨"x", 2, .attempt 2 .shared .snapshot⟩,
    .enter "x" 1 3 .exclusive .snapshot, .step 0, .call ⟨"x", 2, .release .shared⟩] ++
    List.replicate 5 (.step 0)

/-- The row 1 is given back, and the writer, which is woken and granted the row, gives it back
too. -/
def wakeUp : List RoomTurn :=
  [.call ⟨"x", 1, .release .shared⟩] ++ List.replicate 3 (.step 0) ++
    [.call ⟨"x", 1, .releaseAndAdvance .exclusive⟩]

/-- The writer after its second attempt. -/
def sleeper : Acquirer where
  waiter := {
    relation := "x"
    key := 1
    requester := 3
    kind := .exclusive
    discipline := .snapshot
    waits := 2
    phase := .waiting 1 }
  asleep := true

theorem sleeper_woken :
    (({ table := oneBucket } : WaitingRoom).through fallAsleep).acquirers[0]? = some sleeper ∧
      (({ table := oneBucket } : WaitingRoom).through fallAsleep).Reading ("x", 1) ∧
      (({ table := oneBucket } : WaitingRoom).through (fallAsleep ++ wakeUp)).AtRest ∧
      ∀ a ∈ (({ table := oneBucket } : WaitingRoom).through (fallAsleep ++ wakeUp)).acquirers,
        a.waiter.place = ("x", 1) → a.waiter.outcome?.isSome = true := by
  have hcreate : LockTable.create ["x"] { buckets := 1 } = .ok oneBucket := rfl
  have hsleeper : (({ table := oneBucket } : WaitingRoom).through fallAsleep).acquirers[0]? =
      some sleeper := by decide +kernel
  have hfree : (({ table := oneBucket } : WaitingRoom).through (fallAsleep ++ wakeUp)).granted =
      [] := by decide +kernel
  have hrest : (({ table := oneBucket } : WaitingRoom).through (fallAsleep ++ wakeUp)).AtRest := by
    decide +kernel
  obtain ⟨-, hreading, -⟩ := (sleeper_not_forgotten hcreate rfl).1 0 sleeper hsleeper rfl
  have hended := (sleeper_not_forgotten hcreate rfl).2 ("x", 1) (by simp [hfree]) hrest
  exact ⟨hsleeper, hreading, hrest, hended⟩

end WaitingRoom

end LiveIsolation
