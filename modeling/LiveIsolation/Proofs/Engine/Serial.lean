import LiveIsolation.Proofs.Engine.Moves
import LiveIsolation.Proofs.Engine.Replay

/-!
# Commits in order

Where every statement of every transaction is validated and every protocol validates, the
committed transactions might as well have been run one after another, in the order of their
commits.

The reason is that known versions are then never behind the committed ones: whoever commits a
row holds it exclusively and makes its version known. A transaction that passes validation has
therefore seen the rows that the store still holds when it commits, and would be answered in the
same way now.

## Implementation notes

A course (`EngineCourse`) is a run together with what its clients know: the answers to the
statements of the open transactions and of the committed ones. It does not look at what the
engine validates. Which numbers the rows have does not matter, as long as every row has one.
-/

namespace LiveIsolation

namespace Turn

def isExecute : Turn → Bool
  | .plain (.action (.execute ..)) => true
  | _ => false

def isSeed : Turn → Bool
  | .plain (.action (.seed ..)) => true
  | _ => false

/-- A statement does not commit. -/
theorem isExecute_of_committer {turn : Turn} {id : Nat} (h : turn.committer? = some id) :
    turn.isExecute = false := by
  unfold isExecute
  split
  · cases h
  · rfl

theorem exists_of_isExecute {turn : Turn} (h : turn.isExecute = true) :
    ∃ id name index args, turn = .plain (.action (.execute id name index args)) := by
  unfold isExecute at h
  split at h
  · exact ⟨_, _, _, _, rfl⟩
  · cases h

end Turn

namespace Engine

/-- The statement of the workload at a place of a template. -/
def statement? (e : Engine) (name : String) (index : Nat) : Option Statement :=
  (e.workload.find? name).bind (·.statements[index]?)

/-- The answer to a statement, if it is answered. -/
def answer? (e : Engine) (id : Nat) (name : String) (index : Nat) (args : List Value) :
    Option Answer :=
  match (e.execute id name index args).1, e.statement? name index with
  | .ok outcome, some statement => some ⟨⟨statement, args⟩, outcome⟩
  | _, _ => none

end Engine

/-- A run of an engine with the answers that its clients were given. -/
structure EngineCourse where
  engine : Engine
  /-- The answers to the statements of each worker's open transaction. -/
  opened : Nat → List Answer := fun _ => []
  /-- The answers to the statements of the transactions that the store has committed, in order. -/
  committed : List (List Answer) := []

namespace EngineCourse

/-- The open transactions after a turn. A statement begins one if none is open. -/
def openedAfter (c : EngineCourse) : Turn → Nat → List Answer
  | .plain (.action (.execute id name index args)) =>
    if c.engine.busy id then c.opened
    else
      let earlier := if c.engine.isOpen id then c.opened id else []
      Function.update c.opened id (earlier ++ (c.engine.answer? id name index args).toList)
  | _ => c.opened

/-- The committed transactions after a turn. The store counts its commits. -/
def committedAfter (c : EngineCourse) (turn : Turn) : List (List Answer) :=
  match turn.committer? with
  | some id =>
    if (c.engine.turn turn).2.store.commits = c.engine.store.commits then c.committed
    else c.committed ++ [c.opened id]
  | none => c.committed

def turn (c : EngineCourse) (turn : Turn) : EngineCourse where
  engine := (c.engine.turn turn).2
  opened := c.openedAfter turn
  committed := c.committedAfter turn

def through (c : EngineCourse) (turns : List Turn) : EngineCourse := turns.foldl turn c

/-- A turn other than a statement leaves the open transactions to their clients. -/
theorem openedAfter_of_other {c : EngineCourse} {turn : Turn} (h : turn.isExecute = false) :
    c.openedAfter turn = c.opened := by
  unfold openedAfter
  split
  · cases h
  · rfl

/-- Where nothing is stated and nothing committed, the clients learn nothing. -/
theorem turn_of_commits (c : EngineCourse) {turn : Turn} (hexecute : turn.isExecute = false)
    (hcommits : (c.engine.turn turn).2.store.commits = c.engine.store.commits) :
    c.turn turn = { c with engine := (c.engine.turn turn).2 } := by
  have hcommitted : c.committedAfter turn = c.committed := by
    unfold committedAfter
    split
    · exact if_pos hcommits
    · rfl
  rw [EngineCourse.turn, openedAfter_of_other hexecute, hcommitted]

/-- The statements of the committed transactions. -/
def served (c : EngineCourse) : List (List StatementCall) :=
  c.committed.map fun t => t.map Answer.call

/-- An engine whose clients have run nothing. -/
def ofEngine (e : Engine) : EngineCourse := { engine := e }

theorem through_engine (c : EngineCourse) (turns : List Turn) :
    (c.through turns).engine = c.engine.through turns := by
  induction turns generalizing c with
  | nil => rfl
  | cons turn rest ih => exact ih (c.turn turn)

end EngineCourse

namespace Engine

variable {e e' : Engine} {w : Worker} {t : OpenTransaction} {log : Log} {logs : Nat → Log}
  {id : Nat}

/-- Every statement of every transaction is validated at its commit. -/
structure FullyValidates (e : Engine) : Prop where
  barrier : e.barrier.Validates
  bound : ∀ template ∈ e.workload.templates, ∀ s ∈ template.statements, s.bindings ≠ []
  samples : e.config.sampleEvery = 1

theorem FullyValidates.congr (h : e.FullyValidates) (hworkload : e'.workload = e.workload)
    (hconfig : e'.config = e.config) (hbarrier : e'.barrier.Validates) : e'.FullyValidates where
  barrier := hbarrier
  bound := by
    rw [hworkload]
    exact h.bound
  samples := by
    rw [hconfig]
    exact h.samples

/-- The row of every statement is then asked for. -/
theorem FullyValidates.keyed (h : e.FullyValidates) (hopened : e.Opened w t log) {v : Visit}
    (hv : v ∈ log) : t.sampled = true ∧ v.keyed t.sampled = true := by
  obtain ⟨template, htemplate, hstatement⟩ := hopened.statements v hv
  have hsampled : t.sampled = true := by
    rw [hopened.sampled, EngineConfig.samples, h.samples, Nat.mod_one]
    rfl
  have hbound : v.statement.bindings.isEmpty = false := by
    rw [List.isEmpty_eq_false_iff]
    exact h.bound template htemplate v.statement hstatement
  refine ⟨hsampled, ?_⟩
  rw [Visit.keyed, hsampled, hbound, Bool.or_true, Bool.not_false, Bool.true_and, Bool.or_true]

theorem FullyValidates.recorded (h : e.FullyValidates) (hopened : e.Opened w t log) {v : Visit}
    (hv : v ∈ log) (d : Discipline) : v.recorded t.sampled d = true := by
  obtain ⟨hsampled, hkeyed⟩ := h.keyed hopened hv
  rw [Visit.recorded, hkeyed, hsampled, Bool.or_true, Bool.true_and]

/-- A version that is known is the committed one. -/
def Known (e : Engine) : Prop := ∀ p v, e.locks.cached? p = some v → e.committed? p = some v

theorem Known.seen? (h : e.Known) : e.locks.seen? e.committed? = e.committed? := by
  funext p
  simp only [LockTable.seen?]
  cases hv : e.locks.cached? p with
  | none => rfl
  | some v => exact (h p v hv).symm

/-- What is learned from the store is known. -/
theorem Known.learns (h : e.Known) {locks : LockTable}
    (hlearns : Learns e.locks locks e.committed?) {p : Place} {v : Nat}
    (hv : locks.cached? p = some v) : e.committed? p = some v := by
  rcases hlearns p with hsame | ⟨-, hcommitted⟩
  · exact h p v (hsame ▸ hv)
  · exact hcommitted ▸ hv

theorem Known.still (h : e.Known) (hs : e.Still e') : e'.Known := by
  intro p v hv
  rw [committed?, hs.rows]
  exact h.learns hs.learns hv

/-- A transaction that passes validation has seen the rows that the store holds now. -/
theorem Opened.stands (hopened : e.Opened w t log) (hground : e.Ground) (hfull : e.FullyValidates)
    (hknown : e.Known) (hpasses : e.Passes t) : log.Stands e.store.row? := by
  obtain ⟨d, hd⟩ := hfull.barrier.discipline?
  have hholds := hpasses d hd
  rw [hknown.seen?] at hholds
  intro v hfresh
  have hmem := hfresh.mem
  obtain ⟨before, after, hlog, hown⟩ := hfresh
  have ho : v.obligation (before.outcome v) ∈ t.obligations.under d := by
    rw [hopened.follows.obligations]
    refine Log.mem_obligations.2 ⟨before, v, after, hlog, hfull.recorded hopened hmem d, rfl, ?_⟩
    exact .inr fun u hu _ hwrite => Log.own?_eq_none.1 hown u hu hwrite
  have hobserved := Log.observed_of_fresh hown
  cases hbase : v.base with
  | some r =>
      obtain ⟨now, hnow, hlater⟩ := hopened.older v hmem r hbase
      have hversion : now.version = r.version := by
        refine hholds _ ho r.version ?_ now.version ?_
        · rw [hobserved, hbase]
          cases v.isWrite <;> rfl
        · exact congrArg (Option.map (·.version)) hnow
      left
      rcases hlater with rfl | hlt
      · exact hnow.symm
      · exact absurd hversion.symm (Nat.ne_of_lt hlt)
  | none =>
      cases hw : v.isWrite with
      | false => exact .inr ⟨rfl, rfl⟩
      | true =>
          -- A write saw the version zero, which no row of the store has.
          left
          cases hnow : e.store.row? v.place with
          | none => rfl
          | some now =>
              have hversion : now.version = 0 := by
                refine hholds _ ho 0 ?_ now.version ?_
                · rw [hobserved, hbase, hw]
                  rfl
                · exact congrArg (Option.map (·.version)) hnow
              exact absurd hversion (Nat.ne_of_gt (hground.counted _ _ hnow))

/-- Every row that is written is locked exclusively. -/
theorem Opened.lockedWrites (hopened : e.Opened w t log) (hfull : e.FullyValidates) {v : Visit}
    (hv : v ∈ log) (hwrite : v.isWrite = true) : e.lockedWrites t v.place = true := by
  obtain ⟨d, hd⟩ := hfull.barrier.discipline?
  rw [Engine.lockedWrites, hd, Option.any_some, Obligations.plan, LockPlan.writes_ofObligations,
    hopened.follows.obligations]
  obtain ⟨o, ho, hwrite', hplace⟩ :=
    Log.exists_write_obligation.2 ⟨v, hv, hfull.recorded hopened hv d, hwrite, rfl⟩
  exact ⟨o, ho, hplace, hwrite'⟩

/-- After a commit, what is known is committed again. -/
theorem Committed.known (h : e.Committed w t e') (hopened : e.Opened w t log)
    (hground : e.Ground) (hfull : e.FullyValidates) (hknown : e.Known) : e'.Known := by
  have hstands := hopened.stands hground hfull hknown h.passes
  obtain ⟨locks, hlearns, hcached⟩ := h.cached
  intro p v hv
  rw [hcached p] at hv
  rw [committed?, h.rows, hopened.row?_writeAll]
  cases hown : log.own? p with
  | none =>
      have hunlocked : e.lockedWrites t p = false := by
        rw [Bool.eq_false_iff]
        intro hlocked
        obtain ⟨row, hrow⟩ := hopened.own_of_lockedWrites hlocked
        rw [hown] at hrow
        cases hrow
      rw [hunlocked, if_neg Bool.false_ne_true] at hv
      rcases mem_raisedAll hv with hlearned | hwritten
      · exact hknown.learns hlearns hlearned
      · rw [hopened.follows.written] at hwritten
        obtain ⟨u, hu, hwrite, hplace, -⟩ := Log.mem_written hwritten
        exact absurd hplace (Log.own?_eq_none.1 hown u hu.mem hwrite)
  | some row =>
      obtain ⟨u, hu, hwrite, rfl, -⟩ := Log.own?_eq_some hown
      rw [hopened.lockedWrites hfull hu.mem hwrite, if_pos rfl] at hv
      change some (((e.store.row? u.place).getD {}).version + 1) = some v
      rw [Option.some.injEq]
      rcases mem_raisedAll hv with hlearned | hwritten
      · obtain ⟨k, hk, rfl⟩ := Option.map_eq_some_iff.1 hlearned
        obtain ⟨now, hnow, rfl⟩ := Option.map_eq_some_iff.1 (hknown.learns hlearns hk)
        rw [hnow]
        rfl
      · rw [hopened.follows.written] at hwritten
        obtain ⟨x, hx, hwrite', hplace, rfl⟩ := Log.mem_written hwritten
        rcases hstands x hx with hbase | ⟨hread, -⟩
        · rw [Visit.nextVersion, hbase, hplace]
        · rw [hwrite'] at hread
          cases hread

end Engine

namespace EngineCourse

variable {c : EngineCourse} {start : Store} {logs : Nat → Log} {id : Nat}

/-- The clients know what the logs say, and one after another the committed transactions would
be answered in the same way. -/
structure Serial (c : EngineCourse) (start : Store) (logs : Nat → Log) : Prop where
  sound : c.engine.Sound logs
  full : c.engine.FullyValidates
  known : c.engine.Known
  opened : ∀ id w t, c.engine.worker? id = some w → w.current = some t →
    c.opened id = (logs id).answers
  replayed : ∃ outcomes s,
    start.replay c.served = .ok (outcomes, s) ∧
      List.Forall₂ (List.Forall₂ Answer.AgreesWith) c.committed outcomes ∧
      s.unavailable = false ∧ s.keys = c.engine.keys ∧
      ∀ p, s.row? p = c.engine.store.row? p

/-- Neither rows nor answers have changed. -/
theorem Serial.still (h : c.Serial start logs) {e' : Engine} (hstill : c.engine.Still e')
    (hsound : e'.Sound logs) : Serial { c with engine := e' } start logs where
  sound := hsound
  full := h.full.congr hstill.workload hstill.config (hstill.barrier h.full.barrier)
  known := h.known.still hstill
  opened i w' t hw' ht := by
    obtain ⟨w, hw, hwt⟩ := hstill.opened i w' t hw' ht
    exact h.opened i w t hw hwt
  replayed := by
    obtain ⟨outcomes, s, hreplay, hagree, hs, hkeys, hrows⟩ := h.replayed
    refine ⟨outcomes, s, hreplay, hagree, hs, hkeys.trans hstill.keys.symm, ?_⟩
    intro p
    exact (hrows p).trans (hstill.rows p).symm

/-- The answers of a worker's open transaction are those of its log. -/
theorem Serial.earlier (h : c.Serial start logs) (id : Nat) :
    (if c.engine.isOpen id then c.opened id else []) = (c.engine.openLog logs id).answers := by
  simp only [Engine.openLog]
  cases hopen : c.engine.isOpen id with
  | false => rfl
  | true =>
      obtain ⟨t, ht⟩ := Option.isSome_iff_exists.1 hopen
      obtain ⟨w, hw, hwt⟩ := Option.bind_eq_some_iff.1 ht
      exact h.opened id w t hw hwt

/-- A client knows the answer to a statement that the log gives. -/
theorem Serial.answered (h : c.Serial start logs) {name : String} {index : Nat}
    {args : List Value} {logs' : Nat → Log}
    (hlogged : c.engine.Logged logs id name index args (c.engine.execute id name index args).1
      logs') :
    (if c.engine.isOpen id then c.opened id else []) ++
        (c.engine.answer? id name index args).toList = (logs' id).answers ∧
      ∀ i, i ≠ id → logs' i = logs i := by
  rw [h.earlier]
  simp only [Engine.answer?]
  generalize (c.engine.execute id name index args).1 = result at hlogged
  cases hlogged with
  | unanswered f =>
      refine ⟨?_, fun i hi => Function.update_of_ne hi _ _⟩
      rw [Function.update_self]
      exact List.append_nil _
  | answered template statement columns htemplate hstatement hcolumns =>
      have hfound : c.engine.statement? name index = some statement := by
        rw [Engine.statement?, htemplate]
        exact hstatement
      refine ⟨?_, fun i hi => Function.update_of_ne hi _ _⟩
      rw [Function.update_self, Log.answers_concat, hfound]
      rfl

/-- A statement of a client. -/
theorem Serial.execute (h : c.Serial start logs) (hidle : c.engine.busy id = false)
    (name : String) (index : Nat) (args : List Value) :
    ∃ logs', (c.turn (.plain (.action (.execute id name index args)))).Serial start logs' := by
  obtain ⟨logs', hlogged, hsound⟩ := h.sound.execute hidle name index args
  obtain ⟨hanswers, hothers⟩ := h.answered hlogged
  obtain ⟨counters, next, workers, heq, hsame⟩ :=
    c.engine.execute_eq (h.sound.id_eq id) name index args
  have hengine : (c.engine.turn (.plain (.action (.execute id name index args)))).2 =
      (c.engine.execute id name index args).2 := by
    change (c.engine.take (.execute id name index args)).2 = _
    rw [Engine.take_execute hidle]
  refine ⟨logs', ?_, ?_, ?_, ?_, ?_⟩
  · change Engine.Sound (c.engine.turn _).2 logs'
    rw [hengine]
    exact hsound
  · change Engine.FullyValidates (c.engine.turn _).2
    rw [hengine, heq]
    exact h.full.congr rfl rfl h.full.barrier
  · change Engine.Known (c.engine.turn _).2
    rw [hengine, heq]
    exact h.known
  · intro i w t hw ht
    change (c.engine.turn _).2.worker? i = some w at hw
    rw [hengine, heq] at hw
    change c.openedAfter (.plain (.action (.execute id name index args))) i = _
    simp only [openedAfter, hidle, Bool.false_eq_true, if_false]
    by_cases hi : i = id
    · subst hi
      rw [Function.update_self]
      exact hanswers
    · rw [Function.update_of_ne hi, hothers i hi]
      exact h.opened i w t ((hsame i hi).symm.trans hw) ht
  · obtain ⟨outcomes, s, hreplay, hagree, hs, hkeys, hrows⟩ := h.replayed
    refine ⟨outcomes, s, hreplay, hagree, hs, ?_, ?_⟩
    · change s.keys = (c.engine.turn _).2.keys
      rw [hengine, heq]
      exact hkeys
    · intro p
      change _ = (c.engine.turn _).2.store.row? p
      rw [hengine, heq]
      exact hrows p

/-- A successful commit puts the transaction at the end of the committed ones. -/
theorem Serial.commit (h : c.Serial start logs) {turn : Turn} (hturn : turn.committer? = some id)
    {w : Worker} {t : OpenTransaction} (hw : c.engine.worker? id = some w)
    (hcurrent : w.current = some t)
    (hcommitted : c.engine.Committed w t (c.engine.turn turn).2)
    (hsound : (c.engine.turn turn).2.Sound logs) : (c.turn turn).Serial start logs := by
  have hopened := (h.sound.fine id w hw).opened t hcurrent
  have hstands := hopened.stands h.sound.ground h.full h.known hcommitted.passes
  have hlast : (c.turn turn).committed = c.committed ++ [(logs id).answers] := by
    change c.committedAfter turn = _
    have hmore : ¬(c.engine.turn turn).2.store.commits = c.engine.store.commits := by
      rw [hcommitted.commits]
      exact Nat.succ_ne_self _
    simp only [committedAfter, hturn, if_neg hmore]
    rw [h.opened id w t hw hcurrent]
  have hsame : (c.turn turn).opened = c.opened :=
    openedAfter_of_other (Turn.isExecute_of_committer hturn)
  refine ⟨hsound, ?_, ?_, ?_, ?_⟩
  · exact h.full.congr hcommitted.workload hcommitted.config (hcommitted.barrier h.full.barrier)
  · exact hcommitted.known hopened h.sound.ground h.full h.known
  · intro i w' t' hw' ht'
    obtain ⟨-, hold⟩ := hcommitted.opened i w' t' hw' ht'
    rw [hsame]
    exact h.opened i w' t' hold ht'
  · obtain ⟨outcomes, s, hreplay, hagree, hs, hkeys, hrows⟩ := h.replayed
    have hrow : s.row? = c.engine.store.row? := funext hrows
    obtain ⟨last, s', hserve, hlastAgree, hs', hkeys', hrows'⟩ :=
      Store.serve_log hs (hkeys ▸ h.sound.ground.keys) (hkeys ▸ hopened.placed) (hrow ▸ hstands)
    refine ⟨outcomes ++ [last], s', ?_, ?_, hs', ?_, ?_⟩
    · rw [served, hlast, List.map_append]
      exact Store.replay_concat hreplay hserve
    · rw [hlast]
      exact List.rel_append hagree (.cons hlastAgree .nil)
    · exact hkeys'.trans (hkeys.trans hcommitted.keys.symm)
    · intro p
      calc s'.row? p
          = _ := hrows' p
        _ = (c.engine.store.writeAll w.link.connection.writes).row? p := by
            rw [hrow]
            exact (hopened.row?_writeAll p).symm
        _ = (c.engine.turn turn).2.store.row? p := (hcommitted.rows p).symm

/-- Every turn in which commits stay apart, but a change from outside. -/
theorem Serial.turn (h : c.Serial start logs) {turn : Turn} (hturn : turn.Apart)
    (hseed : turn.isSeed = false) (hrequest : turn ≠ .plain (.action (.request .serializable))) :
    ∃ logs', (c.turn turn).Serial start logs' := by
  by_cases hexecute : turn.isExecute = true
  · obtain ⟨id, name, index, args, rfl⟩ := Turn.exists_of_isExecute hexecute
    cases hbusy : c.engine.busy id with
    | false => exact h.execute hbusy name index args
    | true =>
        have hsame : c.turn (.plain (.action (.execute id name index args))) = c := by
          simp only [EngineCourse.turn, openedAfter, committedAfter, Turn.committer?, Engine.turn,
            Engine.occur, Engine.take_execute_of_busy hbusy, hbusy, if_true]
        rw [hsame]
        exact ⟨logs, h⟩
  · rw [Bool.not_eq_true] at hexecute
    have hmoves := h.sound.turn_moves hturn
    generalize he : (c.engine.turn turn).2 = e' at hmoves
    cases hmoves with
    | still _ _ hstill hsound =>
        rw [c.turn_of_commits hexecute (he ▸ hstill.commits), he]
        exact ⟨logs, h.still hstill hsound⟩
    | stated id name index args _ => cases hexecute
    | committed _ id hcommitter w t _ hw hcurrent hcommitted hsound =>
        subst he
        exact ⟨logs, h.commit hcommitter hw hcurrent hcommitted hsound⟩
    | requested target =>
        rw [c.turn_of_commits hexecute (he ▸ rfl), he]
        have htarget : target ≠ .serializable := by
          rintro rfl
          exact hrequest rfl
        refine ⟨logs, h.still ?_ ?_⟩
        · exact c.engine.still_of_data (fun hb => hb.request htarget) c.engine.counters
            c.engine.store.levels c.engine.store.nextConnection c.engine.store.unavailable
        · exact h.sound.withBarrier (c.engine.barrier.request target) c.engine.store.levels
            c.engine.store.nextConnection
    | seeded place value => cases hseed

theorem Serial.through (h : c.Serial start logs) {turns : List Turn}
    (hturns : ∀ turn ∈ turns, turn.Apart) (hseed : ∀ turn ∈ turns, turn.isSeed = false)
    (hrequest : .plain (.action (.request .serializable)) ∉ turns) :
    ∃ logs', (c.through turns).Serial start logs' := by
  induction turns generalizing c logs with
  | nil => exact ⟨logs, h⟩
  | cons turn rest ih =>
      obtain ⟨hturn, hrest⟩ := List.forall_mem_cons.1 hturns
      obtain ⟨hfirst, hlater⟩ := List.forall_mem_cons.1 hseed
      obtain ⟨hne, hnone⟩ := List.ne_and_not_mem_of_not_mem_cons hrequest
      obtain ⟨logs', h'⟩ := h.turn hturn hfirst hne.symm
      exact ih h' hrest hlater hnone

end EngineCourse

namespace Engine

variable {e : Engine} {logs : Nat → Log}

/-- No statement has been run yet, though rows may have been committed from outside. -/
structure Prepared (e : Engine) (logs : Nat → Log) : Prop where
  sound : e.Sound logs
  full : e.FullyValidates
  quiet : e.Quiet
  unknown : ∀ p, e.locks.cached? p = none

theorem Prepared.turn (h : e.Prepared logs) {turn : Turn} (hturn : turn.Apart)
    (hexecute : turn.isExecute = false)
    (hrequest : turn ≠ .plain (.action (.request .serializable))) :
    (e.turn turn).2.Prepared logs := by
  have hmoves := h.sound.turn_moves hturn
  generalize (e.turn turn).2 = e' at hmoves
  cases hmoves with
  | still _ _ hstill hsound =>
      refine ⟨hsound, h.full.congr hstill.workload hstill.config (hstill.barrier h.full.barrier),
        hstill.quiet h.quiet, ?_⟩
      rw [hstill.locks h.quiet]
      exact h.unknown
  | stated id name index args _ => cases hexecute
  | committed _ id _ w t _ hw hcurrent _ _ =>
      rw [h.quiet id w hw] at hcurrent
      cases hcurrent
  | requested target =>
      have htarget : target ≠ .serializable := by
        rintro rfl
        exact hrequest rfl
      refine ⟨?_, h.full.congr rfl rfl (h.full.barrier.request htarget), h.quiet, h.unknown⟩
      exact h.sound.withBarrier (e.barrier.request target) e.store.levels e.store.nextConnection
  | seeded place value =>
      exact ⟨h.sound.seed place value, h.full.congr rfl rfl h.full.barrier, h.quiet, h.unknown⟩

theorem Prepared.through (h : e.Prepared logs) {turns : List Turn}
    (hturns : ∀ turn ∈ turns, turn.Apart) (hexecute : ∀ turn ∈ turns, turn.isExecute = false)
    (hrequest : .plain (.action (.request .serializable)) ∉ turns) :
    (e.through turns).Prepared logs := by
  refine through_induction (P := fun e => e.Prepared logs) (fun turn hmem _ h => ?_) h
  have hother : turn ≠ .plain (.action (.request .serializable)) := fun he => hrequest (he ▸ hmem)
  exact h.turn (hturns turn hmem) (hexecute turn hmem) hother

theorem prepared_create {workload : Workload} {config : EngineConfig} {keys : KeyRule}
    (h : create workload config keys = .ok e) (hkeys : keys.Total)
    (hbound : ∀ template ∈ workload.templates, ∀ s ∈ template.statements, s.bindings ≠ [])
    (hsample : config.sampleEvery = 1) (hinitial : config.protocol ≠ .ok .serializable)
    (logs : Nat → Log) : e.Prepared logs := by
  have hsound := sound_create h hkeys logs
  obtain ⟨protocol, locks, hprotocol, hlocks, rfl⟩ := create_eq_ok h
  obtain ⟨-, -, hcached⟩ := LockTable.create_eq_ok hlocks
  refine ⟨hsound, ⟨Barrier.validates_ofProtocol ?_, hbound, hsample⟩, ?_, hcached⟩
  · rintro rfl
    exact hinitial hprotocol
  · intro id w hw
    cases hw

/-- Nothing has been committed yet, so there is nothing to run again. -/
theorem Prepared.serial (h : e.Prepared logs) :
    (EngineCourse.ofEngine e).Serial { e.store with unavailable := false } logs where
  sound := h.sound
  full := h.full
  known p v hv := by
    have hnone : e.locks.cached? p = none := h.unknown p
    have hsome : e.locks.cached? p = some v := hv
    rw [hnone] at hsome
    cases hsome
  opened id w t hw ht := by
    have hnone : w.current = none := h.quiet id w hw
    rw [hnone] at ht
    cases ht
  replayed := ⟨[], _, rfl, .nil, rfl, h.sound.ground.storeKeys, fun _ => rfl⟩

/-- Where every statement binds a column, every transaction is sampled and every protocol
validates, the store's commits can be run again one whole transaction after another: on the
store as it was before the first statement they give the same answers and the same rows. This is
so in every run in which commits stay apart, whenever the store comes and goes, between any two
questions of a commit too. -/
theorem commits_replay_in_order {workload : Workload} {config : EngineConfig} {keys : KeyRule}
    {e : Engine} (hcreate : create workload config keys = .ok e) (hkeys : keys.Total)
    (hbound : ∀ template ∈ workload.templates, ∀ s ∈ template.statements, s.bindings ≠ [])
    (hsample : config.sampleEvery = 1) (hinitial : config.protocol ≠ .ok .serializable)
    {before after : List Turn} (hturns : ∀ turn ∈ before ++ after, turn.Apart)
    (hexecute : ∀ turn ∈ before, turn.isExecute = false)
    (hseed : ∀ turn ∈ after, turn.isSeed = false)
    (hrequest : .plain (.action (.request .serializable)) ∉ before ++ after) :
    ∃ outcomes s,
      Store.replay { (e.through before).store with unavailable := false }
          ((EngineCourse.ofEngine (e.through before)).through after).served =
            .ok (outcomes, s) ∧
        List.Forall₂ (List.Forall₂ Answer.AgreesWith)
          ((EngineCourse.ofEngine (e.through before)).through after).committed outcomes ∧
        ∀ p, s.row? p = (e.through (before ++ after)).store.row? p := by
  obtain ⟨hfirst, hlater⟩ := List.forall_mem_append.1 hturns
  have hprepared :=
    (prepared_create hcreate hkeys hbound hsample hinitial fun _ => []).through hfirst hexecute
      fun hmem => hrequest (List.mem_append_left after hmem)
  obtain ⟨logs, hserial⟩ := hprepared.serial.through hlater hseed
    fun hmem => hrequest (List.mem_append_right before hmem)
  obtain ⟨outcomes, s, hreplay, hagree, -, -, hrows⟩ := hserial.replayed
  refine ⟨outcomes, s, hreplay, hagree, ?_⟩
  intro p
  rw [hrows, EngineCourse.through_engine, through_append]
  rfl

/-- Snapshot isolation that validates every statement of every transaction. -/
def fullSnapshot : EngineConfig := { initialProtocol := "si", sampleEvery := 1 }

/-- A row is there before two workers come. -/
def seededPair : List Turn :=
  [.plain (.action (.seed ("x", 1) (.int 10))), .plain (.action (.connect 1)),
    .plain (.action (.connect 2))]

/-- Two workers read a row, and one of them writes it. It loses its transaction to an outage that
begins after the validation of its commit, and commits when it has run again. The other one is
turned away then, and commits when it has run again after a switch. -/
def contendedBumps : List Turn :=
  [.plain (.action (.execute 1 "bump" 0 [.int 1])),
    .plain (.action (.execute 2 "bump" 0 [.int 1])),
    .plain (.action (.execute 1 "bump" 1 [.int 1, .int 11])),
    .commit 1 (fun k => k == 2) false,
    .plain (.action (.execute 1 "bump" 0 [.int 1])),
    .plain (.action (.execute 1 "bump" 1 [.int 1, .int 11])), .commit 1 (fun _ => false) true,
    .plain (.action (.execute 2 "bump" 1 [.int 1, .int 12])),
    .plain (.action (.finish 2 .commit)), .plain (.action (.request .readCommitted)),
    .plain (.action .beginRequest), .plain (.action (.finish 1 .commit)),
    .plain (.action (.finish 2 .commit)), .plain (.action .advance),
    .plain (.action (.resume 1)), .plain (.action (.resume 2)), .plain (.action .advance),
    .plain (.action (.execute 2 "bump" 0 [.int 1])),
    .plain (.action (.execute 2 "bump" 1 [.int 1, .int 12])),
    .plain (.action (.finish 2 .commit))]

theorem contended_bumps_replay :
    ∃ e, create bumping fullSnapshot RowKey.standard = .ok e ∧
      ∃ c, c = (EngineCourse.ofEngine (e.through seededPair)).through contendedBumps ∧
        c.committed.length = 2 ∧ c.engine.counters.aborted = 2 ∧
        c.engine.barrier.current = .readCommitted ∧
        ∃ outcomes s,
          Store.replay { (e.through seededPair).store with unavailable := false } c.served =
            .ok (outcomes, s) ∧
          List.Forall₂ (List.Forall₂ Answer.AgreesWith) c.committed outcomes ∧
          ∀ p, s.row? p = (e.through (seededPair ++ contendedBumps)).store.row? p := by
  obtain ⟨e, hcreate, hcommitted, haborted, hcurrent⟩ :=
    exists_create bumping fullSnapshot RowKey.standard
      (fun e =>
        let c := (EngineCourse.ofEngine (e.through seededPair)).through contendedBumps
        c.committed.length = 2 ∧ c.engine.counters.aborted = 2 ∧
          c.engine.barrier.current = .readCommitted) (by decide +kernel)
  refine ⟨e, hcreate, _, rfl, hcommitted, haborted, hcurrent, ?_⟩
  exact commits_replay_in_order hcreate (RowKey.total_hashed _) (by decide) rfl (by decide)
    (by decide) (by decide) (by decide) (by simp [seededPair, contendedBumps])

end Engine

end LiveIsolation
