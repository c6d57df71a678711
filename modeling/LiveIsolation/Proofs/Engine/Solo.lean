import LiveIsolation.Proofs.Engine.Moves

/-!
# Conflicts without contention

A worker that nobody interferes with should never be turned away. It is turned away in two cases.
The known version of a row lags behind the store if transactions that were not validated have
committed the row at the same time, since each of them makes known the version that it was told.
And a validated read of a row that the transaction has written itself observes the version of
that write, which nobody has committed yet, unless the write is validated too.

The main theorem says that there is no third case.
-/

namespace LiveIsolation

/-- A call has failed with a conflict. -/
def conflicted : Except Fault Unit → Bool
  | .error f => f.isConflict
  | .ok _ => false

namespace Engine

variable {e₀ e e' e₁ : Engine} {w w₁ : Worker} {t : OpenTransaction} {log before after : Log}
  {v : Visit} {logs : Nat → Log} {id : Nat} {d : Discipline} {p : Place}

/-- The known version of a row is not the committed one. -/
def Lags (e : Engine) (p : Place) : Prop :=
  ∃ k c, e.locks.cached? p = some k ∧ e.committed? p = some c ∧ k ≠ c

/-- A statement is found changed although nobody has changed its row: the known version of the
row lags, or the statement reads an existing row after writes of its own transaction that are
not validated. -/
def Misjudges (e : Engine) (sampled : Bool) (d : Discipline) (before : Log) (v : Visit) : Prop :=
  v.recorded sampled d = true ∧
    (e.Lags v.place ∨
      (v.isWrite = false ∧ (∃ c, e.committed? v.place = some c) ∧
        (∃ u ∈ before, u.isWrite = true ∧ u.place = v.place) ∧
        ∀ u ∈ before, u.isWrite = true → u.place = v.place → u.recorded sampled d = false))

/-- What a validation compares with is the committed version, unless that lags. -/
theorem Ground.seen?_cases (h : e.Ground) (p : Place) :
    (e.committed? p = none ∧ e.locks.seen? e.committed? p = none) ∨
      ∃ k c, e.committed? p = some c ∧ e.locks.seen? e.committed? p = some k ∧ k ≤ c ∧
        (e.Lags p ↔ k ≠ c) := by
  simp only [LockTable.seen?]
  cases hcached : e.locks.cached? p with
  | some k =>
      obtain ⟨c, hc, hle⟩ := h.cached p k hcached
      refine .inr ⟨k, c, hc, rfl, hle, ?_⟩
      constructor
      · rintro ⟨k', c', hk', hc', hne⟩
        rw [hcached, Option.some.injEq] at hk'
        rw [hc, Option.some.injEq] at hc'
        rwa [hk', hc']
      · intro hne
        exact ⟨k, c, hcached, hc, hne⟩
  | none =>
      cases hc : e.committed? p with
      | none => exact .inl ⟨rfl, rfl⟩
      | some c =>
          refine .inr ⟨c, c, rfl, rfl, Nat.le_refl c, iff_of_false ?_ fun hne => hne rfl⟩
          rintro ⟨k, -, hk, -⟩
          rw [hcached] at hk
          cases hk

/-- A statement observes the committed version of an existing row, unless it reads the
transaction's own write. -/
theorem observed_eq_committed {c : Nat} (hc : e.committed? v.place = some c)
    (hbefore : ∀ u ∈ before, u.base = e.store.row? u.place) (hbase : v.base = e.store.row? v.place)
    (h : v.isWrite = true ∨ before.own? v.place = none) :
    (v.obligation (before.outcome v)).observed = some c := by
  obtain ⟨r, hr, rfl⟩ := Option.map_eq_some_iff.1 hc
  cases hown : before.own? v.place with
  | none =>
      rw [Log.observed_of_fresh hown, hbase, hr]
      cases v.isWrite <;> rfl
  | some row =>
      rw [hown] at h
      have hwrite : v.isWrite = true := h.resolve_right nofun
      obtain ⟨u, hu, -, hplace, hversion⟩ := Log.own?_eq_some hown
      rw [Log.observed_of_own hown, if_pos hwrite, hversion, Visit.nextVersion, hbefore u hu.mem,
        hplace, hr]
      rfl

/-- The own write that a statement reads is one version ahead. -/
theorem observed_own {c : Nat} (hc : e.committed? v.place = some c)
    (hbefore : ∀ u ∈ before, u.base = e.store.row? u.place) (hread : v.isWrite = false)
    {row : Row} (hown : before.own? v.place = some row) :
    (v.obligation (before.outcome v)).observed = some (c + 1) := by
  obtain ⟨r, hr, rfl⟩ := Option.map_eq_some_iff.1 hc
  obtain ⟨u, hu, -, hplace, hversion⟩ := Log.own?_eq_some hown
  rw [Log.observed_of_own hown, hread, if_neg Bool.false_ne_true, hversion, Visit.nextVersion,
    hbefore u hu.mem, hplace, hr]
  rfl

/-- A transaction whose rows nobody has changed is found wanting exactly where a statement of it
is misjudged. -/
theorem Opened.not_holdsUp_iff (hopened : e.Opened w t log) (hground : e.Ground)
    (hbase : ∀ v ∈ log, v.base = e.store.row? v.place) (d : Discipline) :
    ¬LockTable.HoldsUp (t.obligations.under d) (e.locks.seen? e.committed?) ↔
      ∃ (before : Log) (v : Visit) (after : Log), log = before ++ v :: after ∧
        e.Misjudges t.sampled d before v := by
  rw [hopened.follows.obligations]
  constructor
  · intro hfails
    simp only [LockTable.HoldsUp, Classical.not_forall] at hfails
    obtain ⟨o, ho, n, hn, k, hk, hne⟩ := hfails
    obtain ⟨before, v, after, hlog, hrecorded, rfl, hcovered⟩ := Log.mem_obligations.1 ho
    have hbefore : ∀ u ∈ before, u.base = e.store.row? u.place :=
      fun u hu => hbase u (hlog ▸ List.mem_append_left _ hu)
    have hv : v.base = e.store.row? v.place := hbase v (by simp [hlog])
    refine ⟨before, v, after, hlog, hrecorded, ?_⟩
    rw [Visit.obligation_place] at hk
    rcases hground.seen?_cases v.place with ⟨-, hnone⟩ | ⟨k', c, hc, hk', hle, hlags⟩
    · rw [hnone] at hk
      cases hk
    · rw [hk', Option.some.injEq] at hk
      subst hk
      by_cases hplain : v.isWrite = true ∨ before.own? v.place = none
      · rw [observed_eq_committed hc hbefore hv hplain, Option.some.injEq] at hn
        exact .inl (hlags.2 (hn ▸ hne))
      · obtain ⟨hread, hown⟩ := not_or.1 hplain
        obtain ⟨row, hrow⟩ := Option.ne_none_iff_exists'.1 hown
        obtain ⟨u, hu, hwrite, hplace, -⟩ := Log.own?_eq_some hrow
        refine .inr ⟨Bool.eq_false_iff.2 hread, ⟨c, hc⟩, ⟨u, hu.mem, hwrite, hplace⟩, ?_⟩
        intro x hx hxwrite hxplace
        rw [Bool.eq_false_iff]
        intro hxrecorded
        exact hcovered.resolve_left hread x hx hxrecorded hxwrite hxplace
  · rintro ⟨before, v, after, hlog, hrecorded, hwrong⟩ hholds
    have hbefore : ∀ u ∈ before, u.base = e.store.row? u.place :=
      fun u hu => hbase u (hlog ▸ List.mem_append_left _ hu)
    have hv : v.base = e.store.row? v.place := hbase v (by simp [hlog])
    rcases hground.seen?_cases v.place with ⟨hnone, -⟩ | ⟨k, c, hc, hk, hle, hlags⟩
    · rcases hwrong with ⟨k, c, -, hc, -⟩ | ⟨-, ⟨c, hc⟩, -, -⟩
      · rw [hnone] at hc
        cases hc
      · rw [hnone] at hc
        cases hc
    · by_cases hcovered : v.isWrite = true ∨ ∀ u ∈ before, u.recorded t.sampled d = true →
        u.isWrite = true → u.place ≠ v.place
      · have ho : v.obligation (before.outcome v) ∈ log.obligations t.sampled d :=
          Log.mem_obligations.2 ⟨before, v, after, hlog, hrecorded, rfl, hcovered⟩
        by_cases hplain : v.isWrite = true ∨ before.own? v.place = none
        · have hkc := hholds _ ho c (observed_eq_committed hc hbefore hv hplain) k hk
          rcases hwrong with hlag | ⟨hread, -, ⟨u, hu, hwrite, hplace⟩, -⟩
          · exact hlags.1 hlag hkc
          · rw [hread] at hplain
            exact Log.own?_eq_none.1 (hplain.resolve_left Bool.false_ne_true) u hu hwrite hplace
        · obtain ⟨hread, hown⟩ := not_or.1 hplain
          obtain ⟨row, hrow⟩ := Option.ne_none_iff_exists'.1 hown
          have hkc := hholds _ ho (c + 1)
            (observed_own hc hbefore (Bool.eq_false_iff.2 hread) hrow) k hk
          exact absurd hle (by omega)
      · -- A read that is covered has a write before it, which is validated in its place.
        obtain ⟨hread, hsome⟩ := not_or.1 hcovered
        simp only [Classical.not_forall, not_not] at hsome
        obtain ⟨u, hu, hurecorded, hwrite, hplace⟩ := hsome
        rcases hwrong with hlag | ⟨-, -, -, hunrecorded⟩
        · obtain ⟨first, second, hsplit⟩ := List.append_of_mem hu
          have ho : u.obligation (Log.outcome first u) ∈ log.obligations t.sampled d := by
            refine Log.mem_obligations.2 ⟨first, u, second ++ v :: after, ?_, hurecorded, rfl,
              .inl hwrite⟩
            rw [hlog, hsplit, List.append_assoc, List.cons_append]
          have hfirst : ∀ x ∈ first, x.base = e.store.row? x.place :=
            fun x hx => hbefore x (hsplit ▸ List.mem_append_left _ hx)
          rw [← hplace] at hc hk
          exact hlags.1 hlag
            (hholds _ ho c (observed_eq_committed hc hfirst (hbefore u hu) (.inl hwrite)) k hk)
        · rw [hunrecorded u hu hwrite hplace] at hurecorded
          cases hurecorded

section Alone

variable {template : Transaction} {name : String} {index : Nat} {args : List Value}

/-- Since an engine's state `e₀`, nothing has happened but that a worker has run statements of
one template, and all of them were answered. -/
structure Alone (e₀ e : Engine) (id : Nat) (template : Transaction) (log : Log) : Prop where
  same : ∃ counters next workers, e = { e₀ with counters, nextTransaction := next, workers }
  sound : ∃ logs, e.Sound logs ∧ e.openLog logs id = log
  worker : ∃ w, e.worker? id = some w ∧ w.blocked = none ∧ w.link.failing = [] ∧
    (w.current = none → log = [] ∧ e.nextTransaction = e₀.nextTransaction) ∧
    ∀ t, w.current = some t →
      t.sampled = e₀.config.samples e₀.nextTransaction ∧ t.template.id = template.id

theorem alone_of_idle (h : e.Sound logs) (hw : e.worker? id = some w) (hcurrent : w.current = none)
    (hfree : w.blocked = none) (hlink : w.link.failing = []) (template : Transaction) :
    e.Alone e id template [] where
  same := ⟨e.counters, e.nextTransaction, e.workers, rfl⟩
  sound := ⟨logs, h, openLog_of_none hw hcurrent⟩
  worker := by
    refine ⟨w, hw, hfree, hlink, fun _ => ⟨rfl, rfl⟩, ?_⟩
    intro t ht
    rw [hcurrent] at ht
    cases ht

/-- A transaction that is open, or begins, is of the template and sampled as its number says. -/
theorem opened_sampled (template : Transaction) {n : Nat}
    (hnone : w.current = none → e.nextTransaction = n)
    (hsome : ∀ t, w.current = some t →
      t.sampled = e.config.samples n ∧ t.template.id = template.id) :
    (e.opened w template).1.sampled = e.config.samples n ∧
      (e.opened w template).1.template.id = template.id := by
  rcases e.opened_eq w template with ⟨hcurrent, -, -⟩ | ⟨hcurrent, ht, -, -⟩
  · exact hsome _ hcurrent
  · rw [ht, ← hnone hcurrent]
    exact ⟨rfl, rfl⟩

theorem beginner_blocked (e : Engine) (w : Worker) (template : Transaction) :
    (e.beginner w template).blocked = w.blocked := by
  rcases e.opened_eq w template with ⟨-, -, hbeginner⟩ | ⟨-, -, -, hbeginner⟩
  · rw [hbeginner]
  · rw [hbeginner]

/-- A statement with sufficient arguments is answered. -/
theorem Alone.execute (h : e₀.Alone e id template log) (havailable : e₀.store.unavailable = false)
    (htemplate : e₀.workload.find? name = some template) {statement : Statement}
    (hstatement : template.statements[index]? = some statement) {columns : Columns}
    (hcolumns : statement.resolve args = .ok columns) :
    e₀.Alone (e.execute id name index args).2 id template
      (log ++ [e₀.visit template index statement args columns]) := by
  obtain ⟨counters, next, workers, heq⟩ := h.same
  obtain ⟨logs, hsound, hlog⟩ := h.sound
  obtain ⟨w, hw, hfree, hlink, hnone, hsome⟩ := h.worker
  have hstore : e.store = e₀.store := by rw [heq]
  have hconfig : e.config = e₀.config := by rw [heq]
  have hfound : e.workload.find? name = some template := by rw [heq]; exact htemplate
  have hvisit : e.visit = e₀.visit := by rw [heq]; rfl
  have hidle : e.busy id = false := by simp [busy, hw, hfree]
  have hready : e.ready w name index args =
      .ok (readyStatement e.keys.number template index statement columns) := by
    rw [ready_eq hsound.ground.keys hfound hstatement fun t ht => (hsome t ht).2, hcolumns]
    rfl
  obtain ⟨key, outcome, link, hfailing, hexec⟩ := hsound.execute_answered hw hcolumns hready
    (hlink ▸ List.not_mem_nil) (hstore ▸ havailable)
  obtain ⟨counters', next', workers', heq', -⟩ := e.execute_eq (hsound.id_eq id) name index args
  obtain ⟨logs', hlogged, hsound'⟩ := hsound.execute hidle name index args
  obtain ⟨hsampled, hbound⟩ := opened_sampled template (fun hc => (hnone hc).2)
    fun t ht => hconfig ▸ hsome t ht
  have hid : (e.beginner w template).id = id :=
    (beginner_id e w template).trans (hsound.id_eq id w hw)
  rw [hexec] at heq' hlogged hsound' ⊢
  refine ⟨⟨counters', next', workers', ?_⟩, ⟨logs', hsound', ?_⟩, ?_⟩
  · rw [heq', heq]
  · cases hlogged with
    | answered template' statement' columns' htemplate' hstatement' hcolumns' =>
        rw [hfound, Option.some.injEq] at htemplate'
        subst htemplate'
        rw [hstatement, Option.some.injEq] at hstatement'
        subst hstatement'
        rw [hcolumns, Except.ok.injEq] at hcolumns'
        subst hcolumns'
        rw [openLog, isOpen, worker?_put, if_pos hid.symm, Option.bind_some, Option.isSome_some,
          if_pos rfl, Function.update_self, hlog, hvisit]
  · refine ⟨_, (worker?_put _ _ id).trans (if_pos hid.symm), ?_, hfailing.trans hlink, ?_, ?_⟩
    · exact (beginner_blocked e w template).trans hfree
    · intro hc
      cases hc
    · intro t ht
      rw [Option.some.injEq] at ht
      subst ht
      rw [← hconfig]
      cases key with
      | none => exact ⟨hsampled, hbound⟩
      | some k => exact ⟨hsampled, hbound⟩

/-- The log of statements of a template, each given by its place and its arguments, that are run
now. -/
def visits (e : Engine) (template : Transaction) (calls : List (Nat × List Value)) : Log :=
  calls.filterMap fun c => do
    let statement ← template.statements[c.1]?
    let columns ← (statement.resolve c.2).toOption
    return e.visit template c.1 statement c.2 columns

theorem visits_base {calls : List (Nat × List Value)} (hv : v ∈ e.visits template calls) :
    v.base = e.store.row? v.place := by
  obtain ⟨c, -, hc⟩ := List.mem_filterMap.1 hv
  obtain ⟨statement, -, hc⟩ := Option.bind_eq_some_iff.1 hc
  obtain ⟨columns, -, hc⟩ := Option.bind_eq_some_iff.1 hc
  rw [← Option.some.inj hc]
  rfl

/-- The actions by which a worker runs statements of a template. -/
def callsOf (id : Nat) (name : String) (calls : List (Nat × List Value)) : List EngineAction :=
  calls.map fun c => .execute id name c.1 c.2

/-- Statements with sufficient arguments are all answered. -/
theorem Alone.run (h : e₀.Alone e id template log) (havailable : e₀.store.unavailable = false)
    (htemplate : e₀.workload.find? name = some template) {calls : List (Nat × List Value)}
    (hcalls : ∀ c ∈ calls, ∃ statement columns, template.statements[c.1]? = some statement ∧
      statement.resolve c.2 = .ok columns) :
    e₀.Alone (e.run (callsOf id name calls)) id template (log ++ e₀.visits template calls) := by
  induction calls generalizing e log with
  | nil =>
      rw [visits, List.filterMap_nil, List.append_nil]
      exact h
  | cons c rest ih =>
      obtain ⟨statement, columns, hstatement, hcolumns⟩ := hcalls c List.mem_cons_self
      obtain ⟨w, hw, hfree, -⟩ := h.worker
      have hidle : e.busy id = false := by simp [busy, hw, hfree]
      have hvisits : e₀.visits template (c :: rest) =
          e₀.visit template c.1 statement c.2 columns :: e₀.visits template rest := by
        apply List.filterMap_cons_some
        rw [hstatement, Option.bind_eq_bind, Option.bind_some, hcolumns]
        rfl
      have hlast := ih (h.execute havailable htemplate hstatement hcolumns)
        fun x hx => hcalls x (List.mem_cons_of_mem c hx)
      rw [List.append_assoc, List.singleton_append] at hlast
      rw [hvisits]
      change e₀.Alone ((e.take (.execute id name c.1 c.2)).2.run (callsOf id name rest)) id
        template _
      rw [take_execute hidle]
      exact hlast

end Alone

section Commit

/-- A commit of a worker is turned away: it has ended with a conflict, or is stopped at the
boundary with one. -/
def turnsAway (id : Nat) (done : List EngineEvent × Engine) : Bool :=
  done.1.any (fun event =>
    match event with
    | .ended .commit worker result => worker == id && conflicted result
    | _ => false) ||
  (done.2.worker? id).any fun w =>
    match w.blocked with
    | some (.atBoundary .commit result) => conflicted result
    | _ => false

/-- What goes wrong at the boundary is not a conflict. -/
theorem Leaving.not_conflicted {boundary : Except Fault Unit} (h : Leaving e w boundary e') :
    conflicted boundary = false := by
  cases h with
  | missing f hleave =>
      rw [conflicted, Fault.isConflict, Barrier.cls_of_leave hleave]
      rfl
  | untold b _ => rfl
  | denied next b f _ hlevel =>
      rw [conflicted, Fault.isConflict, (Link.setLevel_eq_error hlevel).1]
      rfl
  | switched next b store _ _ => rfl

/-- A worker that has left its boundary has ended its call. -/
theorem Leaving.free {boundary : Except Fault Unit} (h : Leaving e w boundary e') {x : Worker}
    (hx : e'.worker? w.id = some x) : x.blocked = none := by
  cases h with
  | missing f _ =>
      rw [worker?_put, if_pos rfl] at hx
      rw [← Option.some.inj hx]
  | untold b _ =>
      rw [worker?_put, if_pos rfl] at hx
      rw [← Option.some.inj hx]
  | denied next b f _ _ =>
      rw [worker?_put, if_pos rfl] at hx
      rw [← Option.some.inj hx]
  | switched next b store _ _ =>
      rw [worker?_put, if_pos rfl] at hx
      rw [← Option.some.inj hx]

theorem conflicted_first {result boundary : Except Fault Unit}
    (h : conflicted boundary = false) :
    conflicted (Fault.first result boundary) = conflicted result := by
  cases result with
  | error f => rfl
  | ok u => exact h

/-- A commit is turned away if it comes to the boundary with a conflict. -/
theorem turnsAway_passBoundary (e : Engine) (w : Worker) (result : Except Fault Unit) :
    turnsAway w.id (e.passBoundary w .commit result) = conflicted result := by
  have hgone : ∀ (boundary : Except Fault Unit) (e' : Engine), conflicted boundary = false →
      (∀ x, e'.worker? w.id = some x → x.blocked = none) →
      turnsAway w.id ([.ended .commit w.id (Fault.first result boundary)], e') =
        conflicted result := by
    intro boundary e' hboundary hblocked
    have hnone : ((e'.worker? w.id).any fun x =>
        match x.blocked with
        | some (.atBoundary .commit result) => conflicted result
        | _ => false) = false := by
      cases hx : e'.worker? w.id with
      | none => rfl
      | some x => simp only [Option.any_some, hblocked x hx]
    simp only [turnsAway, hnone, List.any_cons, List.any_nil, beq_self_eq_true, Bool.true_and,
      Bool.or_false, conflicted_first hboundary]
  obtain ⟨f, henter, hevents, he⟩ | ⟨b, -, hevents, he⟩ | ⟨_, boundary, -, hevents, hleaving⟩ :=
    passBoundary_inv (Prod.eta (e.passBoundary w .commit result)).symm
  · have hmissing : conflicted (.error f) = false := by
      rw [conflicted, Fault.isConflict, Barrier.cls_of_enter henter]
      rfl
    rw [← Prod.eta (e.passBoundary w .commit result), hevents, he]
    apply hgone _ _ hmissing
    intro x hx
    rw [worker?_put, if_pos rfl] at hx
    rw [← Option.some.inj hx]
  · rw [← Prod.eta (e.passBoundary w .commit result), hevents, he]
    simp [turnsAway]
  · rw [← Prod.eta (e.passBoundary w .commit result), hevents]
    exact hgone _ _ hleaving.not_conflicted fun _ hx => hleaving.free hx

/-- A commit that gets through to an available store is turned away if it does not pass. -/
theorem Sound.turnsAway_iff (h : e.Sound logs) (hw : e.worker? id = some w)
    (hcurrent : w.current = some t) (hlink : w.link.failing = [])
    (havailable : e.store.unavailable = false) :
    turnsAway id (e.start id .commit) = true ↔ ¬e.Passes t := by
  have hfine := h.fine id w hw
  have hopened := hfine.opened t hcurrent
  obtain ⟨result, e₁, w₁, hcommit, hstarted⟩ := startCommit_eq (e := e) hcurrent hfine.honest.gate
  obtain ⟨-, -, -, hsame, -⟩ := (commitDuring_ends e w t _ hcommit).leaves
  have hid : w₁.id = id := hsame.trans (h.id_eq id w hw)
  have hpass := turnsAway_passBoundary e₁ w₁ result
  rw [hid] at hpass
  rw [start_commit hw, hstarted, hpass]
  cases hopened.commitDuring_ended h.ground hcommit with
  | rejected found _ hpasses _ _ _ _ => exact iff_of_true rfl hpasses
  | failed f _ hrefuses _ _ _ _ =>
      have hthrough : ∀ call, call ∉ w.link.failing := fun call => hlink ▸ List.not_mem_nil
      obtain ⟨_, hrefused⟩ := hrefuses
      simp only [storeWhen_self] at hrefused
      rcases hrefused with ⟨p, hfetch⟩ | hstore
      · have hok : w.link.fetch e.store p = .ok _ :=
          Link.fetch_eq_ok.2 ⟨hthrough _, havailable, rfl⟩
        rw [hfetch] at hok
        cases hok
      · have hok : w.link.commit e.store = .ok (_, _) :=
          Link.commit_eq_ok.2 ⟨hthrough _, havailable, rfl, rfl⟩
        rw [hstore] at hok
        cases hok
  | committed locks _ hpasses _ _ _ _ _ =>
      refine iff_of_false ?_ fun hn => hn hpasses
      exact Bool.false_ne_true

end Commit

/-- After any run in which commits stay apart, an idle worker runs statements of one template
with sufficient arguments and commits, while the store is available and nobody else calls. It is
turned away exactly if the commit follows a discipline under which one of the statements is
misjudged. -/
theorem solo_turned_away_iff {workload : Workload} {config : EngineConfig} {keys : KeyRule}
    {e : Engine} (hcreate : create workload config keys = .ok e) (hkeys : keys.Total)
    {turns : List Turn} (hturns : ∀ turn ∈ turns, turn.Apart) {id : Nat} {w : Worker}
    (hw : (e.through turns).worker? id = some w) (hidle : w.current = none)
    (hfree : w.blocked = none) (hlink : w.link.failing = [])
    (havailable : (e.through turns).store.unavailable = false) {name : String}
    {template : Transaction} (htemplate : workload.find? name = some template)
    {calls : List (Nat × List Value)}
    (hcalls : ∀ c ∈ calls, ∃ statement columns, template.statements[c.1]? = some statement ∧
      statement.resolve c.2 = .ok columns) :
    turnsAway id (((e.through turns).run (callsOf id name calls)).start id .commit) = true ↔
      ∃ d, (e.through turns).barrier.required.discipline? = some d ∧
        ∃ before v after, (e.through turns).visits template calls = before ++ v :: after ∧
          (e.through turns).Misjudges (config.samples (e.through turns).nextTransaction) d
            before v := by
  obtain ⟨logs, hsound, hworkload, hconfig⟩ :=
    (sound_create hcreate hkeys fun _ => []).through hturns
  obtain ⟨protocol, locks, -, -, heq⟩ := create_eq_ok hcreate
  rw [show e.workload = workload by rw [heq]] at hworkload
  rw [show e.config = config by rw [heq]] at hconfig
  rw [← hworkload] at htemplate
  rw [← hconfig]
  generalize e.through turns = e₀ at *
  have halone :=
    (alone_of_idle hsound hw hidle hfree hlink template).run havailable htemplate hcalls
  rw [List.nil_append] at halone
  obtain ⟨counters, next, workers, heq⟩ := halone.same
  obtain ⟨logs', hsound', hlog⟩ := halone.sound
  obtain ⟨w', hw', hfree', hlink', hnone, hsome⟩ := halone.worker
  generalize e₀.run (callsOf id name calls) = e' at *
  cases hcurrent : w'.current with
  | none =>
      -- Nothing has been run, so there is nothing to validate.
      obtain ⟨hempty, -⟩ := hnone hcurrent
      refine iff_of_false ?_ ?_
      · have hstart : e'.start id .commit = e'.passBoundary w' .commit (.ok ()) := by
          rw [start_commit hw']
          simp only [startCommit, hcurrent]
        have hpass := turnsAway_passBoundary e' w' (.ok ())
        rw [hsound'.id_eq id w' hw'] at hpass
        rw [hstart, hpass]
        exact Bool.false_ne_true
      · rintro ⟨d, -, before, v, after, hsplit, -⟩
        rw [hempty] at hsplit
        cases before <;> cases hsplit
  | some t =>
      have hopened := (hsound'.fine id w' hw').opened t hcurrent
      rw [openLog_of_some hw' hcurrent] at hlog
      rw [hlog] at hopened
      have havailable' : e'.store.unavailable = false := by rw [heq]; exact havailable
      have hbase : ∀ v ∈ e₀.visits template calls, v.base = e'.store.row? v.place := by
        intro v hv
        rw [heq]
        exact visits_base hv
      rw [hsound'.turnsAway_iff hw' hcurrent hlink' havailable', Passes]
      simp only [Classical.not_forall, exists_prop,
        hopened.not_holdsUp_iff hsound'.ground hbase, (hsome t hcurrent).1]
      rw [heq]
      exact Iff.rfl

/-- Snapshot isolation that validates every third transaction. -/
def sparseSnapshot : EngineConfig := { initialProtocol := "si", sampleEvery := 3 }

/-- Two workers write a row at the same time and commit it, one after the other, without being
validated. Both were told version two. -/
def lostUpdate : List Turn :=
  [.plain (.action (.seed ("x", 1) (.int 10))), .plain (.action (.connect 1)),
    .plain (.action (.connect 2)), .plain (.action (.execute 1 "bump" 1 [.int 1, .int 11])),
    .plain (.action (.execute 2 "bump" 1 [.int 1, .int 12])),
    .plain (.action (.finish 1 .commit)), .plain (.action (.finish 2 .commit))]

theorem lost_update_solo_iff :
    ∃ e w, create bumping sparseSnapshot RowKey.standard = .ok e ∧
      (e.through lostUpdate).worker? 1 = some w ∧ w.current = none ∧ w.blocked = none ∧
      w.link.failing = [] ∧ (e.through lostUpdate).store.unavailable = false ∧
      ∃ template, bumping.find? "bump" = some template ∧
        (turnsAway 1
            (((e.through lostUpdate).run (callsOf 1 "bump" [(0, [.int 1])])).start 1 .commit) =
            true ↔
          ∃ d, (e.through lostUpdate).barrier.required.discipline? = some d ∧
            ∃ before v after,
              (e.through lostUpdate).visits template [(0, [.int 1])] = before ++ v :: after ∧
              (e.through lostUpdate).Misjudges
                (sparseSnapshot.samples (e.through lostUpdate).nextTransaction) d before v) := by
  obtain ⟨e, hcreate, hworker, havailable⟩ := exists_create bumping sparseSnapshot RowKey.standard
    (fun e => ((e.through lostUpdate).worker? 1).any (fun w =>
        w.current.isNone && w.blocked.isNone && w.link.failing.isEmpty) = true ∧
      (e.through lostUpdate).store.unavailable = false) (by decide +kernel)
  obtain ⟨w, hw, hstate⟩ := (Option.any_eq_true _ _).1 hworker
  simp only [Bool.and_eq_true, Option.isNone_iff_eq_none, List.isEmpty_iff] at hstate
  obtain ⟨⟨hidle, hfree⟩, hlink⟩ := hstate
  refine ⟨e, w, hcreate, hw, hidle, hfree, hlink, havailable, _, rfl, ?_⟩
  have hapart : ∀ turn ∈ lostUpdate, turn.Apart := by decide
  apply solo_turned_away_iff hcreate (RowKey.total_hashed _) hapart hw hidle hfree hlink
    havailable rfl
  intro c hc
  rw [List.mem_singleton.1 hc]
  exact ⟨_, _, rfl, rfl⟩

/-- The sampled read that follows alone is turned away, although no transaction is open, no call
is under way and the store is available. -/
theorem lost_update_turns_solo_away :
    ∃ e, create bumping sparseSnapshot RowKey.standard = .ok e ∧
      (e.through lostUpdate).workers.all (fun x =>
        x.2.current.isNone && x.2.blocked.isNone && x.2.link.failing.isEmpty) = true ∧
      (e.through lostUpdate).store.unavailable = false ∧
      (e.through lostUpdate).barrier.phase = .stable ∧
      turnsAway 1
          (((e.through lostUpdate).run (callsOf 1 "bump" [(0, [.int 1])])).start 1 .commit) =
        true := by
  apply exists_create
  decide +kernel

end Engine

end LiveIsolation
