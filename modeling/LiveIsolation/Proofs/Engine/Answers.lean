import LiveIsolation.Proofs.Engine.AllOrNothing
import LiveIsolation.Proofs.Engine.Seats
import LiveIsolation.Proofs.Engine.Switched

/-!
# What the answer to a commit says

A commit answers with the first fault of its transaction and of the boundary that its worker
passes afterwards. A conflict is always one of the transaction, which is then undone. An error of
the store may be one of the boundary: where the worker is told a protocol whose level the store
refuses, the commit of an applied transaction answers with an error of the store
(`Engine.failed_commit_undone_or_refused`).

## Implementation notes

A commit may take many turns: it waits at the gate of its link, and at its boundary. In one of
them its transaction ends, and in that turn or a later one it answers. `Engine.Fate` says where
the transaction ends and what is known of the answer, and is found by induction on the turns.
-/

namespace LiveIsolation

/-- The worker still has its transaction, with all that it has buffered. -/
structure Worker.Retains (w w' : Worker) : Prop where
  id : w'.id = w.id
  current : w'.current = w.current
  connection : w'.link.connection = w.link.connection

theorem Worker.Retains.refl (w : Worker) : w.Retains w := ⟨rfl, rfl, rfl⟩

theorem Worker.Retains.trans {w w' w'' : Worker} (h : w.Retains w') (h' : w'.Retains w'') :
    w.Retains w'' :=
  ⟨h'.id.trans h.id, h'.current.trans h.current, h'.connection.trans h.connection⟩

/-- A turn in which a worker is asked to commit. Where the store comes and goes meanwhile, its link
has no gate. -/
inductive Turn.Commits (id : Nat) (w : Worker) : Turn → Prop where
  | plain : Commits id w (.plain (.action (.finish id .commit)))
  | during (down : Nat → Bool) (downAtBoundary : Bool) (hgate : w.link.permits = none) :
    Commits id w (.commit id down downAtBoundary)

/-- The answer of an event to the commit of a worker. -/
def EngineEvent.reply? (id : Nat) : EngineEvent → Option (Except Fault Unit)
  | .ended .commit i result => if i = id then some result else none
  | _ => none

namespace Engine

variable {e e' e₁ : Engine} {w w' w₀ w₁ : Worker} {id : Nat} {t : OpenTransaction}
  {own r : Except Fault Unit} {turns rest : List Turn} {turn : Turn} {f : Fault}
  {x : List EngineEvent × Engine} {unavailable : Bool}

/-- The answer to the first commit of a worker that ends in some turns. -/
def reply? (e : Engine) (id : Nat) (turns : List Turn) : Option (Except Fault Unit) :=
  (e.ends turns).findSome? (·.reply? id)

/-- The store is unavailable when a worker comes to its boundary in a turn. -/
def downAtBoundary (e : Engine) : Turn → Bool
  | .plain _ => e.store.unavailable
  | .commit _ _ downAtBoundary => downAtBoundary

/-- A worker that leaves its boundary is told a protocol, and the store refuses its level. -/
def Denies (e : Engine) (w : Worker) (unavailable : Bool) : Prop :=
  (e.barrier.tellsLeaving w.id).isSome = true ∧ (.isolation ∈ w.link.failing ∨ unavailable = true)

/-- A commit has its answer `r` in one of the turns, and there the store refuses the level of the
protocol that the worker is told at its boundary. -/
def RefusedIn (e : Engine) (id : Nat) (turns : List Turn) (r : Except Fault Unit) : Prop :=
  ∃ first turn later, turns = first ++ turn :: later ∧ e.reply? id first = none ∧
    ((e.through first).turn turn).1 = [.ended .commit id r] ∧
      ∃ w, (e.through first).worker? id = some w ∧
        (e.through first).Denies w ((e.through first).downAtBoundary turn)

/-- A worker's transaction has come to nothing: no row has changed, it counts as aborted, and
nothing is left that could be applied later. -/
structure Undone (e : Engine) (id : Nat) (e' : Engine) : Prop where
  rows : ∀ p, e'.store.row? p = e.store.row? p
  committed : e'.counters.committed = e.counters.committed
  aborted : e'.counters.aborted = e.counters.aborted + 1
  emptied : ∃ w, e'.worker? id = some w ∧ w.current = none ∧ w.link.connection.writes = []

/-- During some turns a worker has its transaction still. -/
def Keeps (e : Engine) (id : Nat) (w : Worker) (turns : List Turn) : Prop :=
  ∀ earlier, earlier <+: turns → ∃ w', (e.through earlier).worker? id = some w' ∧ w.Retains w'

theorem keeps_nil (hw : e.worker? id = some w') (hretains : w.Retains w') : e.Keeps id w [] := by
  intro earlier hearlier
  rw [List.prefix_nil.1 hearlier]
  exact ⟨w', hw, hretains⟩

theorem Keeps.cons (hw : e.worker? id = some w') (hretains : w.Retains w')
    (h : (e.turn turn).2.Keeps id w rest) : e.Keeps id w (turn :: rest) := by
  intro earlier hearlier
  rcases List.prefix_cons_iff.1 hearlier with rfl | ⟨first, rfl, hfirst⟩
  · exact ⟨w', hw, hretains⟩
  · exact h first hfirst

section Boundary

/-- What can go wrong at the boundary. -/
inductive Boundary (e : Engine) (w : Worker) (unavailable : Bool) : Except Fault Unit → Prop where
  | passed : Boundary e w unavailable (.ok ())
  | missing (f : Fault) (h : f.cls = .invalidState) : Boundary e w unavailable (.error f)
  | denied (f : Fault) (h : f.cls = .store) (hdenies : e.Denies w unavailable) :
    Boundary e w unavailable (.error f)

/-- Only who is seated, who is numbered and which calls fail matters at the boundary. -/
theorem Boundary.congr {boundary : Except Fault Unit} (h : e₁.Boundary w₁ unavailable boundary)
    (hbarrier : e₁.barrier = e.barrier) (hid : w₁.id = w.id)
    (hfailing : w₁.link.failing = w.link.failing) : e.Boundary w unavailable boundary := by
  cases h with
  | passed => exact .passed
  | missing f hcls => exact .missing f hcls
  | denied f hcls hdenies =>
      rw [Denies, hbarrier, hid, hfailing] at hdenies
      exact .denied f hcls hdenies

theorem Leaving.boundary {result : Except Fault Unit} (h : Leaving e w result e') :
    e.Boundary w e.store.unavailable result := by
  cases h with
  | missing f hleave => exact .missing f (Barrier.cls_of_leave hleave)
  | untold b _ => exact .passed
  | denied next b f hleave hlevel =>
      obtain ⟨hcls, hcause⟩ := Link.setLevel_eq_error hlevel
      refine .denied f hcls ⟨?_, hcause⟩
      rw [Barrier.tellsLeaving, hleave]
      rfl
  | switched next b store _ _ => exact .passed

/-- A commit that comes to its boundary answers, or its worker is stopped. -/
theorem passBoundaryWhen_replies (e : Engine) (w : Worker) (own : Except Fault Unit)
    (unavailable : Bool) :
    (∃ boundary, e.Boundary w unavailable boundary ∧
        (e.passBoundaryWhen w .commit own unavailable).1 =
          [.ended .commit w.id (Fault.first own boundary)]) ∨
      ((e.passBoundaryWhen w .commit own unavailable).1 = [] ∧
        (e.passBoundaryWhen w .commit own unavailable).2.worker? w.id =
          some { w with blocked := some (.atBoundary .commit own) }) := by
  have hinv := passBoundary_inv (Prod.eta
    ({ e with store := e.storeWhen unavailable }.passBoundary w .commit own)).symm
  simp only [passBoundaryWhen]
  generalize { e with store := e.storeWhen unavailable }.passBoundary w .commit own = x at hinv
  obtain ⟨events, e'⟩ := x
  rcases hinv with ⟨f, henter, rfl, rfl⟩ | ⟨b, henter, rfl, rfl⟩ | ⟨_, boundary, -, rfl, hleaving⟩
  · exact .inl ⟨.error f, .missing f (Barrier.cls_of_enter henter), rfl⟩
  · refine .inr ⟨rfl, ?_⟩
    change worker? (put _ _) w.id = _
    rw [worker?_put, if_pos rfl]
  · exact .inl ⟨boundary, hleaving.boundary.congr rfl rfl rfl, rfl⟩

end Boundary

section Replies

theorem reply?_cons (e : Engine) (id : Nat) (turn : Turn) (rest : List Turn) :
    e.reply? id (turn :: rest) =
      ((e.turn turn).1.findSome? (·.reply? id)).or ((e.turn turn).2.reply? id rest) := by
  rw [reply?, ends, List.findSome?_append]
  rfl

/-- A turn in which no call of a worker ends has no answer for it. -/
theorem reply?_of_not_ended
    (h : ∀ call result, EngineEvent.ended call id result ∉ (e.turn turn).1) :
    e.reply? id (turn :: rest) = (e.turn turn).2.reply? id rest := by
  have hnone : (e.turn turn).1.findSome? (·.reply? id) = none := by
    rw [List.findSome?_eq_none_iff]
    intro event hevent
    cases event with
    | switched report => rfl
    | ended call i result =>
        cases call with
        | rollback => rfl
        | commit =>
            have hne : i ≠ id := by
              rintro rfl
              exact h .commit result hevent
            exact if_neg hne
  rw [reply?_cons, hnone, Option.none_or]

/-- A turn in which the commit of a worker ends has its answer. -/
theorem reply?_of_ended (h : (e.turn turn).1 = [.ended .commit id own]) (rest : List Turn) :
    e.reply? id (turn :: rest) = some own := by
  rw [reply?_cons, h]
  simp [EngineEvent.reply?]

/-- What a commit answers in some turns when its transaction has ended: `own`, or else what goes
wrong at the boundary. There the worker is missed, or the store refuses a level. -/
def Replies (e : Engine) (id : Nat) (own : Except Fault Unit) (turns : List Turn)
    (r : Except Fault Unit) : Prop :=
  ∃ boundary, r = Fault.first own boundary ∧ ∀ f, boundary = .error f →
    f.cls = .invalidState ∨ f.cls = .store ∧ e.RefusedIn id turns r

theorem Replies.cons (h : (e.turn turn).2.Replies id own rest r)
    (hended : ∀ call result, EngineEvent.ended call id result ∉ (e.turn turn).1) :
    e.Replies id own (turn :: rest) r := by
  obtain ⟨boundary, hr, hfaults⟩ := h
  refine ⟨boundary, hr, fun f hf => ?_⟩
  rcases hfaults f hf with hmissing | ⟨hcls, first, last, later, hturns, hnone, hrefused⟩
  · exact .inl hmissing
  · refine .inr ⟨hcls, turn :: first, last, later, congrArg (turn :: ·) hturns, ?_, hrefused⟩
    rw [reply?_of_not_ended hended, hnone]

/-- A commit that answers in the first turn. -/
theorem replies_of_boundary (hw : e.worker? id = some w) {boundary : Except Fault Unit}
    (hboundary : e.Boundary w (e.downAtBoundary turn) boundary)
    (hended : (e.turn turn).1 = [.ended .commit id (Fault.first own boundary)])
    (hreply : e.reply? id (turn :: rest) = some r) : e.Replies id own (turn :: rest) r := by
  rw [reply?_of_ended hended rest, Option.some.injEq] at hreply
  refine ⟨boundary, hreply.symm, fun f hf => ?_⟩
  subst hf
  cases hboundary with
  | missing _ hcls => exact .inl hcls
  | denied _ hcls hdenies =>
      exact .inr ⟨hcls, [], turn, rest, rfl, rfl, hreply ▸ hended, w, hw, hdenies⟩

/-- The commit of a worker that is stopped at its boundary answers when the worker leaves. -/
theorem Seated.replies_of_stopped (h : e.Seated) (hw : e.worker? id = some w)
    (hblocked : w.blocked = some (.atBoundary .commit own)) (hreply : e.reply? id turns = some r) :
    e.Replies id own turns r := by
  induction turns generalizing e w with
  | nil => cases hreply
  | cons turn rest ih =>
      have hwaits := h.turn_waits hw (by rw [hblocked]; rfl) turn
      generalize hx : e.turn turn = x at hwaits
      cases hwaits with
      | aside _ _ link hw' _ hended =>
          subst hx
          rw [reply?_of_not_ended hended] at hreply
          exact (ih (h.turn turn) hw' hblocked hreply).cons hended
      | opened guard t hgate _ =>
          rw [hblocked] at hgate
          cases hgate
      | resumed call result hstopped =>
          cases hblocked.symm.trans hstopped
          rw [leave_withStopped] at hx
          obtain ⟨boundary, hended, hleaving⟩ := leave_inv (Prod.eta (e.leave w .commit own)).symm
          rw [(h id w hw).1] at hended
          have hevents := (congrArg Prod.fst hx).trans hended
          exact replies_of_boundary hw hleaving.boundary hevents hreply

/-- A commit answers in the turn in which its transaction ends, or when its worker leaves its
boundary. -/
theorem Seated.replies_of_ending (h : e.Seated) (hw : e.worker? id = some w)
    (hid : w₀.id = w.id) (hfailing : w₀.link.failing = w.link.failing)
    (hending : Ending e w₀ own e₁ w₁)
    (hturn : e.turn turn = e₁.passBoundaryWhen w₁ .commit own (e.downAtBoundary turn))
    (hreply : e.reply? id (turn :: rest) = some r) : e.Replies id own (turn :: rest) r := by
  obtain ⟨-, hbarrier, -, hid₁, hfailing₁⟩ := hending.leaves
  have hnumber : w₁.id = id := (hid₁.trans hid).trans (h id w hw).1
  rcases passBoundaryWhen_replies e₁ w₁ own (e.downAtBoundary turn) with
    ⟨boundary, hboundary, hended⟩ | ⟨hended, hw'⟩
  · rw [← hturn, hnumber] at hended
    exact replies_of_boundary hw
      (hboundary.congr hbarrier (hid₁.trans hid) (hfailing₁.trans hfailing)) hended hreply
  · rw [← hturn] at hended hw'
    rw [hnumber] at hw'
    have hnotEnded : ∀ call result, EngineEvent.ended call id result ∉ (e.turn turn).1 := by
      simp [hended]
    rw [reply?_of_not_ended hnotEnded] at hreply
    exact ((h.turn turn).replies_of_stopped hw' rfl hreply).cons hnotEnded

end Replies

/-- What a call comes to that commits the open transaction of a worker, where the store may be
another one at the boundary. -/
inductive Settles (e : Engine) (w : Worker) (unavailable : Bool) :
    List EngineEvent × Engine → Prop where
  | ends (own : Except Fault Unit) (e₁ : Engine) (w₁ : Worker) (hending : Ending e w own e₁ w₁) :
    Settles e w unavailable (e₁.passBoundaryWhen w₁ .commit own unavailable)
  | waits (guard : Option Guard) (locks : LockTable) (counters : Counters) :
    Settles e w unavailable
      ([], { e with locks, counters }.put { w with blocked := some (.atGate guard) })

theorem Commits.settles (h : Commits e w x) : Settles e w e.store.unavailable x := by
  cases h with
  | ends result e₁ w₁ hending =>
      obtain ⟨-, -, hstore, -⟩ := hending.leaves
      rw [← passBoundaryWhen_self, hstore]
      exact .ends result e₁ w₁ hending
  | waits guard locks counters _ _ => exact .waits guard locks counters

/-- A turn in which a worker with an open transaction is asked to commit. -/
theorem settles_of_commits (hw : e.worker? id = some w) (ht : w.current = some t)
    (hfree : w.blocked = none) (hturn : turn.Commits id w) :
    Settles e w (e.downAtBoundary turn) (e.turn turn) := by
  cases hturn with
  | plain =>
      rw [turn_finish hw hfree]
      exact (startCommit_commits ht).settles
  | during down downAtBoundary hgate =>
      rw [turn_commit hw hfree hgate]
      rcases e.startCommitDuring_cases w down downAtBoundary with
        ⟨hnone, -⟩ | ⟨t', own, e₁, w₁, -, hcommit, hstarted⟩
      · rw [ht] at hnone
        cases hnone
      · rw [hstarted]
        exact .ends own e₁ w₁ (commitDuring_ends e w t' down hcommit)

/-- Nothing is left of a transaction that is withdrawn; one that is applied has every buffered
write in the store. -/
theorem Steady.undone_or_applied (hs : e.Steady) (hw : e.worker? id = some w') (hid : w'.id = id)
    (hretains : w.Retains w') (hstill : w'.Retains w₀)
    (hfailing : w₀.link.failing = w'.link.failing) (hending : Ending e w₀ own e₁ w₁)
    (hcrossed : e₁.Crossed w₁ e') :
    Undone e id e' ∨ (∀ f, own = .error f → f.cls = .internal) ∧ Applied e w e' := by
  obtain ⟨hrollback, hsorted, -⟩ := hs.tidy id w' hw
  obtain ⟨barrier, levels, protocol, blocked, rfl, -⟩ := hcrossed
  cases hending with
  | withdrawn f locks counters link hlink hcommitted haborted =>
      have hempty : link.connection.writes = [] := hlink.writes (hfailing ▸ hrollback)
      refine .inl ⟨fun p => rfl, hcommitted, haborted,
        { w₀ with link, current := none, protocol, blocked }, ?_, rfl, hempty⟩
      rw [worker?_put, if_pos (hid.symm.trans hstill.id.symm)]
  | applied _ locks counters link hlink hcommitted haborted hinternal =>
      refine .inr ⟨hinternal, fun p => ?_, hcommitted, haborted⟩
      have hconnection := (hretains.trans hstill).connection
      rw [Connection.pending?, ← hconnection]
      exact Store.row?_writeAll (hstill.connection ▸ hsorted.nodup_keys) e.store p

/-- Where the transaction of a worker ends that is committed in some turns, and what is known of
the answer `r` to that commit. -/
inductive Fate (e : Engine) (id : Nat) (w : Worker) (turns : List Turn) (r : Except Fault Unit) :
    Prop where
  | undone (first : List Turn) (last : Turn) (rest : List Turn)
    (hturns : turns = first ++ last :: rest) (hkeeps : e.Keeps id w first)
    (hundone : Undone (e.through first) id ((e.through first).turn last).2)
  | applied (first : List Turn) (last : Turn) (rest : List Turn)
    (hturns : turns = first ++ last :: rest) (hkeeps : e.Keeps id w first)
    (happlied : Applied (e.through first) w ((e.through first).turn last).2)
    (hreply : ∀ f, r = .error f → f.cls = .internal ∨ f.cls = .invalidState ∨
      f.cls = .store ∧ (e.through first).RefusedIn id (last :: rest) r)

theorem Fate.cons (hw : e.worker? id = some w') (hretains : w.Retains w')
    (h : Fate (e.turn turn).2 id w rest r) : Fate e id w (turn :: rest) r := by
  cases h with
  | undone first last later hturns hkeeps hundone =>
      exact .undone (turn :: first) last later (congrArg (turn :: ·) hturns)
        (hkeeps.cons hw hretains) hundone
  | applied first last later hturns hkeeps happlied hreply =>
      exact .applied (turn :: first) last later (congrArg (turn :: ·) hturns)
        (hkeeps.cons hw hretains) happlied hreply

/-- In the first turn the transaction ends, or the commit comes to the gate and waits there. -/
theorem Seated.fate_of_settles (h : e.Seated) (hs : e.Steady) (hw : e.worker? id = some w')
    (hretains : w.Retains w') (hstill : w'.Retains w₀)
    (hfailing : w₀.link.failing = w'.link.failing)
    (hsettles : Settles e w₀ (e.downAtBoundary turn) (e.turn turn))
    (hlater : ∀ guard,
      (e.turn turn).2.worker? id = some { w₀ with blocked := some (.atGate guard) } →
        (e.turn turn).2.reply? id rest = some r → Fate (e.turn turn).2 id w rest r)
    (hreply : e.reply? id (turn :: rest) = some r) : Fate e id w (turn :: rest) r := by
  have hid := (h id w' hw).1
  generalize hx : e.turn turn = x at hsettles
  cases hsettles with
  | ends own e₁ w₁ hending =>
      have hcrossed := passBoundaryWhen_crossed e₁ w₁ .commit own (e.downAtBoundary turn)
      rw [← hx] at hcrossed
      rcases hs.undone_or_applied hw hid hretains hstill hfailing hending hcrossed with
        hundone | ⟨hinternal, happlied⟩
      · exact .undone [] turn rest rfl (keeps_nil hw hretains) hundone
      · refine .applied [] turn rest rfl (keeps_nil hw hretains) happlied ?_
        rintro f rfl
        obtain ⟨boundary, hr, hfaults⟩ :=
          h.replies_of_ending hw hstill.id hfailing hending hx hreply
        cases own with
        | error g =>
            cases hr
            exact .inl (hinternal f rfl)
        | ok u => exact .inr (hfaults f hr.symm)
  | waits guard locks counters =>
      rw [hx] at hlater
      rw [reply?_of_not_ended (by simp [hx]), hx] at hreply
      refine Fate.cons hw hretains (hx ▸ hlater guard ?_ hreply)
      rw [worker?_put, if_pos (hid.symm.trans hstill.id.symm)]

/-- A commit that waits at the gate of its link goes on when the gate is opened. -/
theorem Seated.fate_of_gated (h : e.Seated) (hs : e.Steady) (hw : e.worker? id = some w')
    (hretains : w.Retains w') {guard : Option Guard} (hblocked : w'.blocked = some (.atGate guard))
    (hreply : e.reply? id turns = some r) : Fate e id w turns r := by
  induction turns generalizing e w' guard with
  | nil => cases hreply
  | cons turn rest ih =>
      have hwaits := h.turn_waits hw (by rw [hblocked]; rfl) turn
      generalize hx : e.turn turn = x at hwaits
      cases hwaits with
      | aside _ _ link hw' hlink hended =>
          subst hx
          rw [reply?_of_not_ended hended] at hreply
          have hretains' : w.Retains { w' with link } :=
            hretains.trans ⟨rfl, rfl, hlink⟩
          exact (ih (h.turn turn) (hs.turn turn) hw' hretains' hblocked hreply).cons hw hretains
      | opened guard t _ _ =>
          have hcommits := comeToGate_commits e
            { w' with link := w'.link.openGate, blocked := none } e.locks e.counters rfl rfl t guard
          have hstill : w'.Retains { w' with link := w'.link.openGate, blocked := none } :=
            ⟨rfl, rfl, rfl⟩
          have hsettles := hcommits.settles
          refine h.fate_of_settles hs hw hretains hstill rfl (hx ▸ hsettles) ?_ hreply
          intro guard hw' hreply'
          exact ih (h.turn _) (hs.turn _) hw' (hretains.trans ⟨rfl, rfl, rfl⟩) rfl hreply'
      | resumed call result hstopped =>
          rw [hblocked] at hstopped
          cases hstopped

/-- A commit of an open transaction that answers with a conflict or with an error of the store has
come to nothing: in one of its turns the transaction was undone, untouched until then. The one
exception is an error of the store that comes from the boundary: the transaction has been applied,
and the store refuses the level of the protocol that its worker is told. -/
theorem failed_commit_undone_or_refused {workload : Workload} {config : EngineConfig}
    {keys : KeyRule} (hcreate : create workload config keys = .ok e) (before : List Turn)
    (hworker : (e.through before).worker? id = some w) (ht : w.current = some t)
    (hfree : w.blocked = none) (hcommits : turn.Commits id w) (later : List Turn)
    (hreply : (e.through before).reply? id (turn :: later) = some (.error f))
    (hfailed : f.cls = .conflict ∨ f.cls = .store) :
    ∃ first last rest, turn :: later = first ++ last :: rest ∧
      (e.through before).Keeps id w first ∧
      (Undone ((e.through before).through first) id
          (((e.through before).through first).turn last).2 ∨
        f.cls = .store ∧
          Applied ((e.through before).through first) w
            (((e.through before).through first).turn last).2 ∧
          ((e.through before).through first).RefusedIn id (last :: rest) (.error f)) := by
  have hseated := (seated_create hcreate).through before
  have hsteady := (steady_create hcreate).through before
  have hsettles := settles_of_commits hworker ht hfree hcommits
  have hfate := hseated.fate_of_settles hsteady hworker (.refl w) (.refl w) rfl hsettles
    (fun guard hw' => (hseated.turn turn).fate_of_gated (hsteady.turn turn) hw' ⟨rfl, rfl, rfl⟩ rfl)
    hreply
  cases hfate with
  | undone first last rest hturns hkeeps hundone =>
      exact ⟨first, last, rest, hturns, hkeeps, .inl hundone⟩
  | applied first last rest hturns hkeeps happlied hanswer =>
      refine ⟨first, last, rest, hturns, hkeeps, .inr ?_⟩
      rcases hanswer f rfl with hinternal | hmissing | ⟨hstore, hrefused⟩
      · rw [hinternal] at hfailed
        simp at hfailed
      · rw [hmissing] at hfailed
        simp at hfailed
      · exact ⟨hstore, happlied, hrefused⟩

/-- A switch is requested while the first of two workers has written the row 1. -/
def switchRequested : List Turn :=
  [.plain (.action (.seed ("x", 1) (.int 10))), .plain (.action (.connect 1)),
    .plain (.action (.connect 2)), .plain (.action (.execute 1 "bump" 1 [.int 1, .int 11])),
    .plain (.action (.request .snapshot)), .plain (.action .beginRequest)]

/-- The worker commits and is stopped at its boundary. The store goes down before the other worker
comes to the boundary too, and the first one goes on. -/
def committedBeforeOutage : List Turn :=
  [.plain (.action (.finish 1 .commit)), .plain (.action (.outage true)),
    .plain (.action (.finish 2 .commit)), .plain (.action .advance), .plain (.action (.resume 1))]

theorem refused_commit_undone_or_refused :
    ∃ e e' w t f, create bumping (.ofProtocol .serializable) RowKey.standard = .ok e ∧
      e.through switchRequested = e' ∧ e'.worker? 1 = some w ∧ w.current = some t ∧
      w.blocked = none ∧ e'.reply? 1 committedBeforeOutage = some (.error f) ∧
      (f.cls = .conflict ∨ f.cls = .store) ∧
      ∃ first last rest, committedBeforeOutage = first ++ last :: rest ∧ e'.Keeps 1 w first ∧
        (Undone (e'.through first) 1 ((e'.through first).turn last).2 ∨
          f.cls = .store ∧ Applied (e'.through first) w ((e'.through first).turn last).2 ∧
            (e'.through first).RefusedIn 1 (last :: rest) (.error f)) := by
  obtain ⟨e, hcreate, hopen, hreply⟩ := exists_create bumping (.ofProtocol .serializable)
    RowKey.standard
    (fun e => ((e.through switchRequested).worker? 1).any
        (fun w => w.current.isSome && w.blocked.isNone) = true ∧
      (e.through switchRequested).reply? 1 committedBeforeOutage =
        some (.error .storeUnavailable)) (by decide +kernel)
  obtain ⟨w, hworker, hw⟩ := (Option.any_eq_true _ _).1 hopen
  obtain ⟨hcurrent, hblocked⟩ := Bool.and_eq_true_iff.1 hw
  obtain ⟨t, ht⟩ := Option.isSome_iff_exists.1 hcurrent
  have hfree : w.blocked = none := Option.isNone_iff_eq_none.1 hblocked
  exact ⟨e, _, w, t, .storeUnavailable, hcreate, rfl, hworker, ht, hfree, hreply, .inr rfl,
    failed_commit_undone_or_refused hcreate switchRequested hworker ht hfree .plain _ hreply
      (.inr rfl)⟩

/-- The commit answers with an error of the store. But the row has the new value, and one
transaction counts as committed, none as aborted. -/
theorem refused_commit_applied :
    ∃ e, create bumping (.ofProtocol .serializable) RowKey.standard = .ok e ∧
      ((e.through switchRequested).worker? 1).any (·.current.isSome) = true ∧
      (e.through switchRequested).store.row? ("x", 1) = some ⟨.int 10, 1⟩ ∧
      (e.through switchRequested).reply? 1 committedBeforeOutage =
        some (.error .storeUnavailable) ∧
      (e.through (switchRequested ++ committedBeforeOutage)).store.row? ("x", 1) =
        some ⟨.int 11, 2⟩ ∧
      (e.through (switchRequested ++ committedBeforeOutage)).counters.committed = 1 ∧
      (e.through (switchRequested ++ committedBeforeOutage)).counters.aborted = 0 := by
  apply exists_create
  decide +kernel

end Engine

end LiveIsolation
