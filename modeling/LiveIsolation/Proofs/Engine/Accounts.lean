import LiveIsolation.Proofs.Engine.Solo
import LiveIsolation.Proofs.Engine.Underway

/-!
# The accounts of an engine

The counters of an engine account for its transactions. A transaction that has begun is open, has
been committed or has been aborted, what has been committed is what the store has committed, and
every conflict that is counted is the answer to some commit (`Overlap.accounts_balance`).

## Implementation notes

While calls are under way the counters are behind the store by the commits that the store has made
and that have not come to their end, and ahead of the answers by the conflicts of workers that stand
at their boundary (`Balanced`). A move concerns one worker, so that the figures of the others are
kept apart (`Overlap.AccountsWith`).
-/

namespace LiveIsolation

/-- What the counters of an engine say about the transactions that are open, the commits that the
store has made but that have not ended, the conflicts that have been counted but not answered, all
commits of the store and the answers with a conflict. -/
structure Balanced (k : Counters) (opens stored owed commits answered : Nat) : Prop where
  started : k.started = k.committed + k.aborted + opens
  active : k.active = opens
  committed : k.committed + stored = commits
  conflicts : k.validationConflicts = answered + owed
  causes : k.validationConflicts ≤ k.lockConflicts + k.versionMismatches

namespace Balanced

variable {k : Counters} {opens stored owed commits answered : Nat}

theorem start (h : Balanced k opens stored owed commits answered) :
    Balanced k.start (opens + 1) stored owed commits answered :=
  ⟨by simp only [Counters.start, h.started]; omega, by simp only [Counters.start, h.active],
    h.committed, h.conflicts, h.causes⟩

theorem commit (h : Balanced k (opens + 1) (stored + 1) owed commits answered) :
    Balanced (k.finish true) opens stored owed commits answered := by
  obtain ⟨hstarted, hactive, hcommitted, hconflicts, hcauses⟩ := h
  refine ⟨?_, ?_, ?_, hconflicts, hcauses⟩
  · simp only [Counters.finish, if_true]
    omega
  · simp only [Counters.finish, if_true]
    omega
  · simp only [Counters.finish, if_true]
    omega

theorem abort (h : Balanced k (opens + 1) stored owed commits answered) :
    Balanced (k.finish false) opens stored owed commits answered := by
  obtain ⟨hstarted, hactive, hcommitted, hconflicts, hcauses⟩ := h
  refine ⟨?_, ?_, hcommitted, hconflicts, hcauses⟩
  · simp only [Counters.finish, Bool.false_eq_true, if_false]
    omega
  · simp only [Counters.finish, Bool.false_eq_true, if_false]
    omega

/-- A transaction is turned away for at least one conflict. -/
theorem conflict (h : Balanced k opens stored owed commits answered) {found : List Conflict}
    (hfound : found ≠ []) :
    Balanced (k.conflict (Conflict.lockCount found) (Conflict.staleCount found)) opens stored
      (owed + 1) commits answered := by
  have hcount := Conflict.lockCount_add_staleCount found
  have hlength := List.length_pos_iff.2 hfound
  obtain ⟨hstarted, hactive, hcommitted, hconflicts, hcauses⟩ := h
  refine ⟨hstarted, hactive, hcommitted, ?_, ?_⟩
  · simp only [Counters.conflict]
    omega
  · simp only [Counters.conflict]
    omega

theorem store (h : Balanced k opens stored owed commits answered) :
    Balanced k opens (stored + 1) owed (commits + 1) answered :=
  ⟨h.started, h.active, congrArg (· + 1) h.committed, h.conflicts, h.causes⟩

theorem answer (h : Balanced k opens stored (owed + 1) commits answered) :
    Balanced k opens stored owed commits (answered + 1) :=
  ⟨h.started, h.active, h.committed, h.conflicts.trans (by omega), h.causes⟩

end Balanced

/-- A call reports a conflict. -/
def owed (call : EndCall) (result : Except Fault Unit) : Bool :=
  decide (call = .commit) && conflicted result

/-- A commit has ended with a conflict. -/
def EngineEvent.turnedAway : EngineEvent → Bool
  | .ended call _ result => owed call result
  | .switched _ => false

/-- What goes wrong at the boundary does not turn a call into a conflict. -/
theorem owed_first {call : EndCall} {result boundary : Except Fault Unit}
    (h : conflicted boundary = false) :
    owed call (Fault.first result boundary) = owed call result := by
  cases result with
  | ok u => rw [owed, owed, Fault.first_ok, h]; rfl
  | error f => rfl

namespace Overlap

open Engine

variable {o o' : Overlap} {w w' : Worker} {c : CommitCall} {t : OpenTransaction} {id n : Nat}
  {k : Counters} {opening storing owing : Bool} {commits : Nat} {u : Engine}

/-- A worker has a transaction open. -/
def opens (w : Worker) (_ : Option CommitCall) : Bool := w.current.isSome

/-- The store has committed a transaction that still counts as open. -/
def unrecorded (_ : Worker) (c : Option CommitCall) : Bool := c.any (·.stored.isSome)

/-- A worker stands at its boundary with a conflict to report. -/
def owes (w : Worker) (_ : Option CommitCall) : Bool :=
  match w.blocked with
  | some (.atBoundary call result) => owed call result
  | _ => false

/-- The number of the workers that have something to them. -/
def tally (o : Overlap) (p : Worker → Option CommitCall → Bool) : Nat :=
  o.engine.workers.countP fun x => p x.2 (o.calls x.1)

/-- The same number without one worker. -/
def tallyBut (o : Overlap) (id : Nat) (p : Worker → Option CommitCall → Bool) : Nat :=
  (o.engine.workers.filter (·.1 != id)).countP fun x => p x.2 (o.calls x.1)

theorem tally_eq (h : o.Manned) (p : Worker → Option CommitCall → Bool) (id : Nat) :
    o.tally p =
      ((o.engine.worker? id).any fun w => p w (o.calls id)).toNat + o.tallyBut id p :=
  h.sorted.countP_eq _ id

/-- The accounts are in order when some commits have been answered with a conflict. -/
def Accounts (o : Overlap) (answered : Nat) : Prop :=
  Balanced o.engine.counters (o.tally opens) (o.tally unrecorded) (o.tally owes)
    o.engine.store.commits answered

/-- The accounts are in order if a worker counts for certain figures. -/
def AccountsWith (o : Overlap) (id : Nat) (k : Counters) (opening storing owing : Bool)
    (commits answered : Nat) : Prop :=
  Balanced k (opening.toNat + o.tallyBut id opens) (storing.toNat + o.tallyBut id unrecorded)
    (owing.toNat + o.tallyBut id owes) commits answered

namespace AccountsWith

theorem start (h : o.AccountsWith id k false storing owing commits n) :
    o.AccountsWith id k.start true storing owing commits n := by
  unfold AccountsWith at h ⊢
  simpa only [Bool.toNat_false, Bool.toNat_true, Nat.zero_add, Nat.add_comm 1] using h.start

theorem commit (h : o.AccountsWith id k true true owing commits n) :
    o.AccountsWith id (k.finish true) false false owing commits n := by
  unfold AccountsWith at h ⊢
  rw [Bool.toNat_true, Nat.add_comm 1, Nat.add_comm 1] at h
  simpa only [Bool.toNat_false, Nat.zero_add] using h.commit

theorem abort (h : o.AccountsWith id k true storing owing commits n) :
    o.AccountsWith id (k.finish false) false storing owing commits n := by
  unfold AccountsWith at h ⊢
  rw [Bool.toNat_true, Nat.add_comm 1] at h
  simpa only [Bool.toNat_false, Nat.zero_add] using h.abort

theorem conflict (h : o.AccountsWith id k opening storing false commits n) {found : List Conflict}
    (hfound : found ≠ []) :
    o.AccountsWith id (k.conflict (Conflict.lockCount found) (Conflict.staleCount found)) opening
      storing true commits n := by
  unfold AccountsWith at h ⊢
  simpa only [Bool.toNat_false, Bool.toNat_true, Nat.zero_add, Nat.add_comm 1] using
    h.conflict hfound

theorem store (h : o.AccountsWith id k opening false owing commits n) :
    o.AccountsWith id k opening true owing (commits + 1) n := by
  unfold AccountsWith at h ⊢
  simpa only [Bool.toNat_false, Bool.toNat_true, Nat.zero_add, Nat.add_comm 1] using h.store

/-- A call ends, with a conflict or without one. -/
theorem answer (h : o.AccountsWith id k opening storing owing commits n) :
    o.AccountsWith id k opening storing false commits (n + owing.toNat) := by
  cases owing with
  | false => exact h
  | true =>
      unfold AccountsWith at h ⊢
      rw [Bool.toNat_true, Nat.add_comm 1 (o.tallyBut id owes)] at h
      simpa only [Bool.toNat_false, Bool.toNat_true, Nat.zero_add] using h.answer

/-- A statement begins a transaction unless one is open. -/
theorem begin (h : o.AccountsWith id o.engine.counters w.current.isSome storing owing commits n)
    (template : Transaction) :
    o.AccountsWith id (o.engine.begun w template).counters true storing owing commits n := by
  obtain ⟨hcurrent, hbegun, -⟩ | ⟨hcurrent, -, hbegun, -⟩ := opened_eq o.engine w template
  · rw [hbegun]
    rwa [hcurrent] at h
  · rw [hbegun]
    rw [hcurrent] at h
    exact h.start

end AccountsWith

/-- Only one worker and its commit may have changed. -/
structure Beside (o : Overlap) (id : Nat) (o' : Overlap) : Prop where
  workers : o'.engine.workers.filter (·.1 != id) = o.engine.workers.filter (·.1 != id)
  calls : ∀ i, i ≠ id → o'.calls i = o.calls i

theorem beside_put (hworkers : u.workers = o.engine.workers) (w : Worker)
    {calls : Nat → Option CommitCall} (hcalls : ∀ i, i ≠ w.id → calls i = o.calls i) :
    o.Beside w.id ⟨u.put w, calls⟩ where
  workers := by
    rw [← hworkers]
    exact Ordered.filter_insertWith_new _ _ _ _ _
  calls := hcalls

theorem Beside.tallyBut (h : o.Beside id o') (p : Worker → Option CommitCall → Bool) :
    o'.tallyBut id p = o.tallyBut id p := by
  rw [Overlap.tallyBut, Overlap.tallyBut, h.workers]
  refine List.countP_congr fun x hx => ?_
  have hne : x.1 ≠ id := by simpa using (List.mem_filter.1 hx).2
  rw [h.calls x.1 hne]

section Figures

/-- The figures of a worker that is connected. -/
theorem Accounts.apart (h : o.Accounts n) (hmanned : o.Manned)
    (hw : o.engine.worker? id = some w) :
    o.AccountsWith id o.engine.counters w.current.isSome (unrecorded w (o.calls id))
      (owes w (o.calls id)) o.engine.store.commits n := by
  unfold Accounts at h
  rw [tally_eq hmanned _ id, tally_eq hmanned _ id, tally_eq hmanned _ id, hw] at h
  exact h

/-- A worker that is not connected counts for nothing. -/
theorem Accounts.apart_none (h : o.Accounts n) (hmanned : o.Manned)
    (hw : o.engine.worker? id = none) :
    o.AccountsWith id o.engine.counters false false false o.engine.store.commits n := by
  unfold Accounts at h
  rw [tally_eq hmanned _ id, tally_eq hmanned _ id, tally_eq hmanned _ id, hw] at h
  exact h

theorem AccountsWith.accounts (h : o.AccountsWith id k opening storing owing commits n)
    (hbeside : o.Beside id o') (hmanned : o'.Manned) (hw : o'.engine.worker? id = some w)
    (hopening : w.current.isSome = opening) (hstoring : unrecorded w (o'.calls id) = storing)
    (howing : owes w (o'.calls id) = owing) (hk : o'.engine.counters = k)
    (hcommits : o'.engine.store.commits = commits) : o'.Accounts n := by
  unfold Accounts
  rw [tally_eq hmanned _ id, tally_eq hmanned _ id, tally_eq hmanned _ id, hw, hk, hcommits,
    hbeside.tallyBut, hbeside.tallyBut, hbeside.tallyBut]
  subst hopening hstoring howing
  exact h

theorem AccountsWith.accounts_none (h : o.AccountsWith id k false false false commits n)
    (hbeside : o.Beside id o') (hmanned : o'.Manned) (hw : o'.engine.worker? id = none)
    (hk : o'.engine.counters = k) (hcommits : o'.engine.store.commits = commits) :
    o'.Accounts n := by
  unfold Accounts
  rw [tally_eq hmanned _ id, tally_eq hmanned _ id, tally_eq hmanned _ id, hw, hk, hcommits,
    hbeside.tallyBut, hbeside.tallyBut, hbeside.tallyBut]
  exact h

/-- A worker is put in its place with its figures. -/
theorem AccountsWith.put {calls : Nat → Option CommitCall}
    (h : o.AccountsWith id u.counters opening storing owing u.store.commits n)
    (hid : w.id = id) (hworkers : u.workers = o.engine.workers)
    (hcalls : ∀ i, i ≠ id → calls i = o.calls i) (hmanned : Manned ⟨u.put w, calls⟩)
    (hopening : w.current.isSome = opening) (hstoring : unrecorded w (calls id) = storing)
    (howing : owes w (calls id) = owing) : Accounts ⟨u.put w, calls⟩ n := by
  subst hid
  exact h.accounts (beside_put hworkers w hcalls) hmanned
    ((worker?_put u w w.id).trans (if_pos rfl)) hopening hstoring howing rfl rfl

end Figures

section Moves

/-- The figures do not change with the rest of the engine. -/
theorem Accounts.congr (h : o.Accounts n) (hworkers : u.workers = o.engine.workers)
    (hcounters : u.counters = o.engine.counters)
    (hcommits : u.store.commits = o.engine.store.commits) :
    Accounts { o with engine := u } n := by
  unfold Accounts tally at h ⊢
  simp only [hworkers, hcounters, hcommits]
  exact h

/-- The worker after a transaction has begun, if none was open. -/
theorem beginner_eq (e : Engine) (w : Worker) (template : Transaction) :
    ∃ number, e.beginner w template =
      { w with transaction := number, current := some (e.opened w template).1 } := by
  obtain ⟨hcurrent, -, hbeginner⟩ | ⟨-, -, -, hbeginner⟩ := opened_eq e w template
  · exact ⟨w.transaction, by rw [hbeginner, ← hcurrent]⟩
  · exact ⟨_, hbeginner⟩

/-- A statement may begin a transaction, and may lose it. -/
theorem Accounts.executed (h : o.Accounts n) (hmanned : o.Manned)
    (hw : o.engine.worker? id = some w) {name : String} {index : Nat} {args : List Value}
    {answer : Except Fault Outcome} {e' : Engine}
    (hexecuted : Executed o.engine w name index args answer e')
    (hmanned' : Manned { o with engine := e' }) : Accounts { o with engine := e' } n := by
  have hid := (hmanned.seated id w hw).1
  have hbegin := fun template => (h.apart hmanned hw).begin template
  have hbegun : ∀ template, (o.engine.begun w template).workers = o.engine.workers ∧
      (o.engine.begun w template).store = o.engine.store := by
    intro template
    obtain ⟨counters, next, hsame⟩ := begun_eq o.engine w template
    rw [hsame]
    exact ⟨rfl, rfl⟩
  cases hexecuted with
  | refused f _ => exact h
  | keyless q f _ _ =>
      obtain ⟨hworkers, hstore⟩ := hbegun q.template
      obtain ⟨number, hbeginner⟩ := beginner_eq o.engine w q.template
      have hwith := hbegin q.template
      rw [← hstore] at hwith
      rw [hbeginner] at hmanned' ⊢
      exact hwith.put hid hworkers (fun _ _ => rfl) hmanned' rfl rfl rfl
  | lost q key f _ _ _ =>
      obtain ⟨hworkers, hstore⟩ := hbegun q.template
      obtain ⟨number, hbeginner⟩ := beginner_eq o.engine w q.template
      have hwith := (hbegin q.template).abort
      rw [← hstore] at hwith
      rw [abandon_eq, hbeginner] at hmanned' ⊢
      exact AccountsWith.put (u := { o.engine.begun w q.template with
        counters := (o.engine.begun w q.template).counters.finish false })
        hwith hid hworkers (fun _ _ => rfl) hmanned' rfl rfl rfl
  | answered q key outcome link _ _ _ =>
      obtain ⟨hworkers, hstore⟩ := hbegun q.template
      obtain ⟨number, hbeginner⟩ := beginner_eq o.engine w q.template
      have hwith := hbegin q.template
      rw [← hstore] at hwith
      rw [hbeginner] at hmanned' ⊢
      exact hwith.put hid hworkers (fun _ _ => rfl) hmanned' rfl rfl rfl

theorem AccountsWith.enterBoundary {call : EndCall} {result : Except Fault Unit}
    {calls : Nat → Option CommitCall}
    (h : o.AccountsWith id u.counters false false owing u.store.commits n)
    (howing : owed call result = owing) (hid : w.id = id)
    (hworkers : u.workers = o.engine.workers) (hcurrent : w.current = none)
    (hcalls : ∀ i, i ≠ id → calls i = o.calls i) (hself : calls id = none)
    (hmanned : Manned ⟨(u.enterBoundary w call result).2, calls⟩) :
    Accounts ⟨(u.enterBoundary w call result).2, calls⟩
      (n + (u.enterBoundary w call result).1.countP EngineEvent.turnedAway) := by
  subst howing
  have hclosed : w.current.isSome = false := by rw [hcurrent]; rfl
  have hrecorded : ∀ x, unrecorded x (calls id) = false := fun _ => by rw [hself]; rfl
  rcases u.enterBoundary_inv w call result with ⟨f, hcls, henter⟩ | ⟨barrier, -, henter⟩
  · rw [henter] at hmanned ⊢
    have hconflicted : conflicted (.error f) = false := by
      rw [conflicted, Fault.isConflict, hcls]
      rfl
    have hcount : [EngineEvent.ended call w.id (Fault.first result (.error f))].countP
        EngineEvent.turnedAway = (owed call result).toNat := by
      rw [List.countP_singleton, EngineEvent.turnedAway, owed_first hconflicted]
      cases owed call result <;> rfl
    rw [hcount]
    exact h.answer.put (w := { w with blocked := none }) hid hworkers hcalls hmanned hclosed
      (hrecorded _) rfl
  · rw [henter] at hmanned ⊢
    exact AccountsWith.put (u := { u with barrier })
      (w := { w with blocked := some (.atBoundary call result) }) h hid hworkers hcalls hmanned
      hclosed (hrecorded _) rfl

/-- Every action that ends no transaction keeps the accounts. -/
theorem Accounts.acts (h : o.Accounts n) (hmanned : o.Manned) {a : EngineAction}
    {x : List EngineEvent × Engine} (hacts : o.engine.Acts a x)
    (hcaller : ∀ id, caller? a = some id → o.calls id = none)
    (hmanned' : Manned { o with engine := x.2 }) :
    Accounts { o with engine := x.2 } (n + x.1.countP EngineEvent.turnedAway) := by
  cases hacts with
  | aside a e' events huntouched hsilent =>
      have hcount : events.countP EngineEvent.turnedAway = 0 := by
        refine List.countP_eq_zero.2 fun event hevent => ?_
        cases event with
        | ended call i result => exact absurd hevent (hsilent call i result)
        | switched report => exact Bool.false_ne_true
      rw [hcount]
      exact h.congr huntouched.workers huntouched.counters huntouched.commits
  | joined id w u huntouched hnone hid hcurrent hblocked =>
      have hcall : o.calls id = none := by
        cases hcall : o.calls id with
        | none => rfl
        | some c =>
            obtain ⟨x, t, hx, -⟩ := hmanned.callers id c hcall
            cases hnone.symm.trans hx
      have hwith := h.apart_none hmanned hnone
      rw [← huntouched.counters, ← huntouched.commits] at hwith
      refine hwith.put hid huntouched.workers (fun _ _ => rfl) hmanned' ?_ ?_ ?_
      · rw [hcurrent]
        rfl
      · rw [hcall]
        rfl
      · rw [owes, hblocked]
  | linked id calls w link hw =>
      exact (h.apart hmanned hw).put (w := { w with link }) (hmanned.seated id w hw).1 rfl
        (fun _ _ => rfl) hmanned' rfl rfl rfl
  | executed id name index args w hw answer e' hexecuted =>
      exact h.executed hmanned hw hexecuted hmanned'
  | closed id w hw hfree =>
      have hwith := h.apart hmanned hw
      rw [hcaller id rfl, owes, hfree] at hwith
      have hbeside : o.Beside id
          ⟨o.engine.without id (w.current.elim o.engine.counters fun _ =>
            o.engine.counters.finish false), o.calls⟩ :=
        ⟨by simp only [Engine.without, List.filter_filter, Bool.and_self], fun _ _ => rfl⟩
      have hgone := (worker?_without o.engine id (w.current.elim o.engine.counters fun _ =>
        o.engine.counters.finish false) id).trans (if_pos rfl)
      refine AccountsWith.accounts_none ?_ hbeside hmanned' hgone rfl rfl
      cases ht : w.current with
      | none =>
          rw [ht] at hwith
          exact hwith
      | some t =>
          rw [ht] at hwith
          exact hwith.abort
  | left id w hw call result boundary hblocked u e' huntouched hleaving =>
      have hwith := h.apart hmanned hw
      have howes : owes w (o.calls id) = owed call result := by rw [owes, hblocked]
      have hcount : [EngineEvent.ended call w.id (Fault.first result boundary)].countP
          EngineEvent.turnedAway = (owed call result).toNat := by
        rw [List.countP_singleton, EngineEvent.turnedAway, owed_first hleaving.not_conflicted]
        cases owed call result <;> rfl
      obtain ⟨barrier, levels, protocol, blocked, rfl, -⟩ := hleaving.crossed
      obtain rfl : blocked = none :=
        hleaving.free (x := { w with protocol, blocked }) (by rw [worker?_put, if_pos rfl])
      rw [howes, ← huntouched.counters, ← huntouched.commits] at hwith
      rw [hcount]
      exact AccountsWith.put (u := { u with barrier, store.levels := levels })
        (w := { w with protocol, blocked := none }) hwith.answer (hmanned.seated id w hw).1
        huntouched.workers (fun _ _ => rfl) hmanned' rfl rfl rfl

/-- A commit comes to its end with its transaction. -/
theorem AccountsWith.conclude {committed : Bool} {result : Except Fault Unit}
    (h : o.AccountsWith w.id (u.counters.finish committed) false false owing u.store.commits n)
    (howing : owed .commit result = owing) (hworkers : u.workers = o.engine.workers)
    (hmanned : (o.conclude w u committed result).2.Manned) :
    (o.conclude w u committed result).2.Accounts
      (n + (o.conclude w u committed result).1.countP EngineEvent.turnedAway) := by
  have hcalls : ∀ i, i ≠ w.id → Function.update o.calls w.id none i = o.calls i :=
    fun i hi => Function.update_of_ne hi _ _
  cases committed with
  | true =>
      exact AccountsWith.enterBoundary (w := { w with current := none })
        (u := { u with counters := u.counters.finish true }) h howing rfl hworkers rfl hcalls
        (Function.update_self ..) hmanned
  | false =>
      exact AccountsWith.enterBoundary
        (w := { w with link := w.link.rollback.2, current := none })
        (u := { u with counters := u.counters.finish false }) h howing rfl hworkers rfl hcalls
        (Function.update_self ..) hmanned

/-- Every move of a commit keeps the accounts. -/
theorem Accounts.advance (h : o.Accounts n) (hproper : o.Proper) (hmanned : o.Manned)
    (hw : o.engine.worker? w.id = some w) (ht : w.current = some t)
    (hcall : o.calls w.id = some c) (hmanned' : (o.advance w c t).2.Manned) :
    (o.advance w c t).2.Accounts
      (n + (o.advance w c t).1.countP EngineEvent.turnedAway) := by
  have hcproper := hproper.calls w.id c hcall
  have hfree : w.blocked = none := by
    obtain ⟨x, -, hx, -, hfree⟩ := hmanned.callers w.id c hcall
    exact Option.some.inj (hw.symm.trans hx) ▸ hfree
  have hwith := h.apart hmanned hw
  rw [ht, hcall, owes, hfree] at hwith
  have hadvances := advance_inv hcproper hproper.fit w t
  generalize o.advance w c t = x at hadvances hmanned'
  -- A commit that goes on, and whose worker and counters stay as they are.
  have hgoes : ∀ (locks : LockTable) (c' : CommitCall), c'.stored.isSome = c.stored.isSome →
      (o.set { o.engine with locks } w.id (some c')).Manned →
      (o.set { o.engine with locks } w.id (some c')).Accounts n := by
    intro locks c' hstored hafter
    refine hwith.accounts (w := w) ⟨rfl, fun i hi => Function.update_of_ne hi _ _⟩ hafter hw
      ?_ ?_ ?_ rfl rfl
    · rw [ht]
    · change (Function.update o.calls w.id (some c') w.id).any (·.stored.isSome) = _
      rw [Function.update_self]
      exact hstored
    · rw [owes, hfree]
  cases hadvances with
  | committed _ hstored =>
      have hrecorded : unrecorded w (some c) = true := by simp [unrecorded, hstored]
      rw [hrecorded] at hwith
      exact hwith.commit.conclude rfl rfl hmanned'
  | failed f hcls _ hstored =>
      have hrecorded : unrecorded w (some c) = false := by simp [unrecorded, hstored]
      have howed : owed .commit (.error f) = false := by
        simp [owed, conflicted, Fault.isConflict, hcls]
      rw [hrecorded] at hwith
      exact hwith.abort.conclude howed rfl hmanned'
  | turnedAway found hfound _ hstored =>
      have hrecorded : unrecorded w (some c) = false := by simp [unrecorded, hstored]
      rw [hrecorded] at hwith
      exact (hwith.conflict hfound).abort.conclude rfl rfl hmanned'
  | madeKnown row rest locks hstored _ => exact hgoes locks _ (by rw [hstored]; rfl) hmanned'
  | refused f _ _ => exact hgoes o.engine.locks _ rfl hmanned'
  | stored link store hover hcommit =>
      obtain ⟨-, -, rfl, rfl⟩ := Link.commit_eq_ok.1 hcommit
      have hrecorded : unrecorded w (some c) = false := by
        cases hstored : c.stored with
        | none => simp [unrecorded, hstored]
        | some rows =>
            have hafter := hcproper.settled (by rw [hstored]; rfl)
            cases hover.symm.trans hafter
      rw [hrecorded] at hwith
      have hgiven := hwith.store
      refine AccountsWith.put (u := { o.engine with store := _ }) hgiven rfl rfl
        (fun i hi => Function.update_of_ne hi _ _) hmanned' ?_ ?_ ?_
      · rw [ht]
      · rw [Function.update_self]
        rfl
      · rw [owes, hfree]
  | visits => exact hgoes _ _ rfl hmanned'

theorem Accounts.take (h : o.Accounts n) (hproper : o.Proper) (hmanned : o.Manned)
    (m : OverlapMove) :
    (o.take m).2.Accounts (n + (o.take m).1.countP EngineEvent.turnedAway) := by
  have hmanned' := hmanned.take m
  have hmoves := moves_take hmanned.seated m
  generalize o.take m = x at hmoves hmanned'
  cases hmoves with
  | rests => exact h
  | acts a x hacts _ _ hcaller => exact h.acts hmanned hacts hcaller hmanned'
  | absent id call hw =>
      have hcount : [EngineEvent.ended call id (.error (.workerClosed id))].countP
          EngineEvent.turnedAway = 0 := by
        cases call <;> rfl
      rw [hcount]
      exact h
  | begins w t hw ht hfree hcall =>
      have hwith := h.apart hmanned hw
      rw [hcall] at hwith
      refine hwith.accounts (w := w) ⟨rfl, fun i hi => Function.update_of_ne hi _ _⟩ hmanned' hw rfl
        ?_ rfl rfl rfl
      change (Function.update o.calls w.id (some (CommitCall.begin t _)) w.id).any
        (·.stored.isSome) = _
      rw [Function.update_self]
      cases o.engine.barrier.required.discipline? <;> rfl
  | rollsBack w t hw ht hfree hcall x hx =>
      have hwith := h.apart hmanned hw
      rw [ht, hcall, owes, hfree] at hwith
      rw [← hx] at hmanned' ⊢
      exact AccountsWith.enterBoundary
        (w := { w with link := w.link.rollback.2, current := none })
        (u := { o.engine with counters := o.engine.counters.finish false }) hwith.abort rfl rfl rfl
        rfl (fun _ _ => rfl) hcall hmanned'
  | passes w call hw ht hfree hcall x hx =>
      have hwith := h.apart hmanned hw
      have howed : owed call (.ok ()) = false := by cases call <;> rfl
      rw [ht, hcall, owes, hfree] at hwith
      rw [← hx] at hmanned' ⊢
      exact hwith.enterBoundary howed rfl rfl ht (fun _ _ => rfl) hcall hmanned'
  | proceeds w t c hw ht hcall => exact h.advance hproper hmanned hw ht hcall hmanned'

theorem Accounts.run (h : o.Accounts n) (hproper : o.Proper) (hmanned : o.Manned)
    (moves : List OverlapMove) :
    (o.run moves).Accounts (n + (o.ends moves).countP EngineEvent.turnedAway) := by
  induction moves generalizing o n with
  | nil => exact h
  | cons m rest ih =>
      have hrest := ih (h.take hproper hmanned m) (hproper.take hmanned m) (hmanned.take m)
      rw [Overlap.ends, List.countP_append, ← Nat.add_assoc]
      exact hrest

end Moves

/-- Where no call is in progress, every commit of the store is counted and every conflict is
answered. -/
theorem AtRest.tally_eq_zero (h : o.AtRest) (hmanned : o.Manned) :
    o.tally unrecorded = 0 ∧ o.tally owes = 0 := by
  refine ⟨List.countP_eq_zero.2 fun x hx => ?_, List.countP_eq_zero.2 fun x hx => ?_⟩
  · rw [unrecorded, h.1 x.1]
    exact Bool.false_ne_true
  · have hw : o.engine.worker? x.1 = some x.2 := hmanned.sorted.lookup_of_mem hx
    rw [owes, h.2 x.1 x.2 hw]
    exact Bool.false_ne_true

/-- The calls of any number of workers overlap in any way on one engine and its store, while the
store fails calls, switches are requested and workers are closed. Whenever no call is in progress,
the transactions that have been started are those that were committed, those that were aborted and
those that are open. The open ones are the active ones, the committed ones are the commits of the
store, and every conflict that is counted is the answer to a commit, for a lock or a version at
least. -/
theorem accounts_balance {workload : Workload} {config : EngineConfig} {keys : KeyRule}
    {e : Engine} (hcreate : create workload config keys = .ok e) {store : Store}
    (hcommits : store.commits = 0) {moves : List OverlapMove}
    (hrun : (Overlap.start { e with store }).run moves = o) (hrest : o.AtRest) :
    o.engine.counters.started = o.engine.counters.committed + o.engine.counters.aborted +
        o.engine.workers.countP (fun x => x.2.current.isSome) ∧
      o.engine.counters.active = o.engine.workers.countP (fun x => x.2.current.isSome) ∧
      o.engine.counters.committed = o.engine.store.commits ∧
      o.engine.counters.validationConflicts =
        ((Overlap.start { e with store }).ends moves).countP EngineEvent.turnedAway ∧
      o.engine.counters.validationConflicts ≤
        o.engine.counters.lockConflicts + o.engine.counters.versionMismatches := by
  have hmanned := manned_start hcreate store
  have hproper := proper_start hcreate store
  have hstart : (Overlap.start { e with store }).Accounts 0 := by
    obtain ⟨protocol, locks, -, -, rfl⟩ := create_eq_ok hcreate
    exact ⟨rfl, rfl, hcommits.symm, rfl, Nat.le_refl 0⟩
  have hrun' := hproper.run hmanned moves
  have haccounts := hstart.run hproper hmanned moves
  rw [hrun] at hrun' haccounts
  obtain ⟨hrecorded, howed⟩ := hrest.tally_eq_zero hrun'.2
  unfold Accounts at haccounts
  rw [hrecorded, howed, Nat.zero_add] at haccounts
  exact ⟨haccounts.started, haccounts.active, haccounts.committed, haccounts.conflicts,
    haccounts.causes⟩

/-- Whether no call is in progress can be tested. -/
theorem atRest_of_all (h : o.Manned)
    (hall : (o.engine.workers.all fun x => (o.calls x.1).isNone && x.2.blocked.isNone) = true) :
    o.AtRest := by
  have hworker : ∀ id w, o.engine.worker? id = some w → o.calls id = none ∧ w.blocked = none := by
    intro id w hw
    have hmem := List.all_eq_true.1 hall (id, w) (Ordered.mem_of_lookup hw)
    obtain ⟨hcall, hfree⟩ := Bool.and_eq_true_iff.1 hmem
    exact ⟨Option.isNone_iff_eq_none.1 hcall, Option.isNone_iff_eq_none.1 hfree⟩
  refine ⟨fun id => ?_, fun id w hw => (hworker id w hw).2⟩
  cases hcall : o.calls id with
  | none => rfl
  | some c =>
      obtain ⟨w, t, hw, -, -⟩ := h.callers id c hcall
      cases (hworker id w hw).1.symm.trans hcall

/-- Two workers read a row, and the first one writes it and commits while the second one waits to
be turned away. Then a switch is requested, and the store fails when the second worker begins
again. -/
def interrupted : List OverlapMove :=
  [.action (.seed ("x", 1) .null), .action (.connect 1), .action (.connect 2),
    .action (.execute 1 "bump" 0 [.int 1]), .action (.execute 2 "bump" 0 [.int 1]),
    .action (.execute 1 "bump" 1 [.int 1, .int 5]), .action (.finish 1 .commit)] ++
    List.replicate 13 (.proceed 1) ++ [.leave 1, .action (.finish 2 .commit)] ++
    List.replicate 9 (.proceed 2) ++
    [.leave 2, .action (.request .serializable), .action (.execute 1 "bump" 0 [.int 1]),
      .action (.outage true), .action (.execute 2 "bump" 0 [.int 1])]

/-- Of four transactions one has been committed, one has been turned away, one was lost and one is
still open. -/
theorem interrupted_accounts_balance :
    ∃ e, create bumping { initialProtocol := "si", sampleEvery := 1 } RowKey.standard = .ok e ∧
      ((Overlap.start e).run interrupted).AtRest ∧
      ((Overlap.start e).run interrupted).engine.counters =
        { active := 1, started := 4, committed := 1, aborted := 2, validationConflicts := 1,
          versionMismatches := 1 } ∧
      ((Overlap.start e).run interrupted).engine.workers.countP (fun x => x.2.current.isSome) = 1 ∧
      ((Overlap.start e).run interrupted).engine.store.commits = 1 ∧
      ((Overlap.start e).ends interrupted).countP EngineEvent.turnedAway = 1 := by
  obtain ⟨e, hcreate, hall, hcounters⟩ :=
    exists_create bumping { initialProtocol := "si", sampleEvery := 1 } RowKey.standard
      (fun e => (((Overlap.start e).run interrupted).engine.workers.all fun x =>
          (((Overlap.start e).run interrupted).calls x.1).isNone && x.2.blocked.isNone) = true ∧
        ((Overlap.start e).run interrupted).engine.counters =
          { active := 1, started := 4, committed := 1, aborted := 2, validationConflicts := 1,
            versionMismatches := 1 })
      (by decide +kernel)
  have hmanned : ((Overlap.start e).run interrupted).Manned :=
    ((proper_start hcreate e.store).run (manned_start hcreate e.store) interrupted).2
  have hcommits : e.store.commits = 0 := by
    obtain ⟨protocol, locks, -, -, rfl⟩ := create_eq_ok hcreate
    rfl
  have hrest := atRest_of_all hmanned hall
  have hrun : (Overlap.start { e with store := e.store }).run interrupted =
      (Overlap.start e).run interrupted := rfl
  obtain ⟨-, hopen, hcommitted, hanswered, -⟩ := accounts_balance hcreate hcommits hrun hrest
  rw [hcounters] at hopen hcommitted hanswered
  exact ⟨e, hcreate, hrest, hcounters, hopen.symm, hcommitted.symm, hanswered.symm⟩

end Overlap

end LiveIsolation
