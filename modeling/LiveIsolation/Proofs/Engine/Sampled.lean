import LiveIsolation.Proofs.Engine.Locked
import LiveIsolation.Proofs.Recording

/-!
# Sampled transactions

A sampled transaction validates statements that analysis has not marked. It asks for the row of a
statement if the statement is marked or binds a column (`Statement.asks`), and what it has to
validate is what such statements have touched, without the reads of rows that such a statement has
written before (`OpenTransaction.Validates`). A statement that is neither touches a row that nothing
asks for. A sampled transaction therefore validates all of its statements if and only if there is no
such statement among those that count (`Touch.sites_fresh_filter_iff`).
-/

namespace LiveIsolation

/-- A sampled transaction asks for the row of the statement. -/
def Statement.asks (s : Statement) : Bool := s.validatedAny || !s.bindings.isEmpty

/-- A row that a statement has touched. -/
structure Touch where
  place : Place
  kind : OperationKind
  /-- A sampled transaction asks for the row. -/
  asked : Bool
  deriving DecidableEq, Repr

namespace Touch

variable {xs : List Touch} {x : Touch}

/-- The row is read, and was written before. -/
def Rereads (earlier : List Touch) (x : Touch) : Prop :=
  x.kind ≠ .write ∧ ∃ y ∈ earlier, y.kind = .write ∧ y.place = x.place

instance (earlier : List Touch) (x : Touch) : Decidable (Rereads earlier x) :=
  inferInstanceAs (Decidable (_ ∧ _))

/-- What has been touched, without reads and scans of rows that were written before. -/
def fresh (xs : List Touch) : List Touch := selected (fun earlier x => ¬Rereads earlier x) xs

/-- The rows with the kinds of their statements. -/
def sites (xs : List Touch) : List (Place × OperationKind) := xs.map fun x => (x.place, x.kind)

theorem fresh_concat (xs : List Touch) (x : Touch) :
    fresh (xs ++ [x]) = fresh xs ++ if Rereads xs x then [] else [x] := by
  rw [fresh, selected_concat, ← fresh]
  by_cases h : Rereads xs x <;> simp [h]

/-- No write is left out. -/
theorem filter_fresh (xs : List Touch) :
    (fresh xs).filter (·.kind = .write) = xs.filter (·.kind = .write) := by
  induction xs using List.reverseRecOn with
  | nil => rfl
  | append_singleton xs x ih =>
      rw [fresh_concat, List.filter_append, List.filter_append, ih]
      by_cases hwrite : x.kind = .write
      · simp [Rereads, hwrite]
      · by_cases h : Rereads xs x <;> simp [h, hwrite]

theorem exists_write_fresh {p : Place} :
    (∃ y ∈ fresh xs, y.kind = .write ∧ y.place = p) ↔ ∃ y ∈ xs, y.kind = .write ∧ y.place = p := by
  have hmem : ∀ y, y ∈ fresh xs ∧ y.kind = .write ↔ y ∈ xs ∧ y.kind = .write := by
    intro y
    have h := congrArg (y ∈ ·) (filter_fresh xs)
    simpa only [List.mem_filter, decide_eq_true_eq, eq_iff_iff] using h
  simp only [← and_assoc, hmem]

/-- What is left out touches no row that the rest does not touch. -/
theorem exists_fresh {p : Place} : (∃ x ∈ fresh xs, x.place = p) ↔ ∃ x ∈ xs, x.place = p := by
  induction xs using List.reverseRecOn with
  | nil => rfl
  | append_singleton xs x ih =>
      rw [fresh_concat]
      by_cases h : Rereads xs x
      · obtain ⟨y, hy, -, hplace⟩ := h.2
        simp only [if_pos h, List.append_nil, ih, List.mem_append, List.mem_singleton]
        grind
      · simp only [if_neg h, List.mem_append, List.mem_singleton, or_and_right, exists_or, ih]

/-- Where every written row is asked for, those not asked for can be dropped before or after. -/
theorem fresh_filter (hwrites : ∀ x ∈ xs, x.kind = .write → x.asked = true) :
    fresh (xs.filter (·.asked)) = (fresh xs).filter (·.asked) := by
  induction xs using List.reverseRecOn with
  | nil => rfl
  | append_singleton xs x ih =>
      have hearlier : ∀ y ∈ xs, y.kind = .write → y.asked = true :=
        fun y hy => hwrites y (List.mem_append_left _ hy)
      have hrereads : Rereads (xs.filter (·.asked)) x ↔ Rereads xs x := by
        simp only [Rereads, List.mem_filter]
        grind
      rw [fresh_concat, List.filter_append, List.filter_append, ← ih hearlier]
      by_cases hasked : x.asked = true
      · have hsingle : [x].filter (·.asked) = [x] := by simp [hasked]
        rw [hsingle, fresh_concat]
        by_cases h : Rereads xs x <;> simp [h, hrereads, hasked]
      · by_cases h : Rereads xs x <;> simp [h, hasked]

/-- What is asked for is all that counts if and only if every row that counts is asked for. -/
theorem sites_fresh_filter_iff :
    sites (fresh (xs.filter (·.asked))) = sites (fresh xs) ↔ ∀ x ∈ fresh xs, x.asked = true := by
  constructor
  · intro h
    -- by their number, no write is lost, and then by their number no other one is
    have hwritten : ∀ ys, (sites (fresh ys)).filter (·.2 = .write) =
        sites (ys.filter (·.kind = .write)) := by
      intro ys
      rw [← filter_fresh, sites, sites, List.filter_map]
      rfl
    have hcount : ((xs.filter (·.kind = .write)).filter (·.asked)).length =
        (xs.filter (·.kind = .write)).length := by
      have hlength := congrArg (fun ys => (ys.filter (·.2 = .write)).length) h
      rw [hwritten, hwritten, sites, sites, List.length_map, List.length_map] at hlength
      rw [List.filter_comm]
      exact hlength
    have hwrites : ∀ x ∈ xs, x.kind = .write → x.asked = true := by
      intro x hx hwrite
      exact List.length_filter_eq_length_iff.1 hcount x
        (List.mem_filter.2 ⟨hx, decide_eq_true hwrite⟩)
    have hlength := congrArg List.length h
    rw [fresh_filter hwrites, sites, sites, List.length_map, List.length_map] at hlength
    exact List.length_filter_eq_length_iff.1 hlength
  · intro h
    have hwrites : ∀ x ∈ xs, x.kind = .write → x.asked = true := by
      intro x hx hwrite
      have hmem : x ∈ (fresh xs).filter (·.kind = .write) := by
        rw [filter_fresh]
        exact List.mem_filter.2 ⟨hx, decide_eq_true hwrite⟩
      exact h x (List.mem_filter.1 hmem).1
    rw [fresh_filter hwrites, List.filter_eq_self.2 h]

end Touch

/-- What a statement has touched, if its arguments give a row. -/
def RunStatement.touch? (keys : KeyRule) (r : RunStatement) : Option Touch :=
  (r.row keys).toOption.map fun p => ⟨p, r.statement.kind, r.statement.asks⟩

/-- What statements have touched, in order. -/
def RunStatement.touches (keys : KeyRule) (ran : List RunStatement) : List Touch :=
  ran.filterMap (RunStatement.touch? keys)

theorem RunStatement.touches_concat {keys : KeyRule} {r : RunStatement} {p : Place}
    (ran : List RunStatement) (hrow : r.row keys = .ok p) :
    touches keys (ran ++ [r]) = touches keys ran ++ [⟨p, r.statement.kind, r.statement.asks⟩] := by
  simp [touches, touch?, hrow, Except.toOption]

/-- The rows of obligations with the kinds of their statements. -/
def Obligation.sites (os : List Obligation) : List (Place × OperationKind) :=
  os.map fun o => (o.place, o.kind)

namespace OpenTransaction

variable {keys : KeyRule} {t : OpenTransaction} {ran : List RunStatement} {r : RunStatement}
  {p : Place}

/-- What a sampled transaction has to validate are the rows that it has asked for, without those
that it has read after it had written them. -/
structure Validates (keys : KeyRule) (t : OpenTransaction) (ran : List RunStatement) : Prop where
  placed : ∀ r ∈ ran, ∃ p, r.row keys = .ok p
  obligations : ∀ d, Obligation.sites (t.obligations.under d) =
    Touch.sites (Touch.fresh ((RunStatement.touches keys ran).filter (·.asked)))

theorem validates_begin (keys : KeyRule) (template : Transaction) (sampled : Bool) :
    Validates keys { template, sampled } [] where
  placed _ hr := absurd hr List.not_mem_nil
  obligations d := by cases d <;> rfl

theorem placed_concat (h : ∀ r ∈ ran, ∃ p, r.row keys = .ok p) (hrow : r.row keys = .ok p) :
    ∀ x ∈ ran ++ [r], ∃ p, x.row keys = .ok p := by
  intro x hx
  rcases List.mem_append.1 hx with hx | hx
  · exact h x hx
  · exact ⟨p, List.mem_singleton.1 hx ▸ hrow⟩

/-- A statement whose row is not asked for leaves nothing. -/
theorem Validates.skip (h : t.Validates keys ran) (hrow : r.row keys = .ok p)
    (hasks : r.statement.asks = false) : t.Validates keys (ran ++ [r]) where
  placed := placed_concat h.placed hrow
  obligations d := by
    rw [RunStatement.touches_concat ran hrow, List.filter_append, h.obligations]
    simp [hasks]

/-- An obligation is left out if and only if its row was asked for and written before. -/
theorem Validates.coveredBy_iff (h : t.Validates keys ran) (d : Discipline) {o : Obligation}
    {asked : Bool} :
    o.coveredBy (t.obligations.under d) = true ↔
      Touch.Rereads ((RunStatement.touches keys ran).filter (·.asked))
        ⟨o.place, o.kind, asked⟩ := by
  have hsites : ∀ p, (∃ e ∈ t.obligations.under d, e.kind = .write ∧ e.place = p) ↔
      ∃ y ∈ Touch.fresh ((RunStatement.touches keys ran).filter (·.asked)),
        y.kind = .write ∧ y.place = p := by
    intro p
    have hmem := congrArg ((p, OperationKind.write) ∈ ·) (h.obligations d)
    simpa only [Obligation.sites, Touch.sites, List.mem_map, Prod.mk.injEq, eq_iff_iff,
      and_comm (b := _ = OperationKind.write)] using hmem
  rw [Touch.Rereads, ← Touch.exists_write_fresh, ← hsites, Obligation.coveredBy_iff,
    Obligation.Covered]
  simp only [Obligation.place, Prod.mk.injEq]

/-- A statement whose row is asked for leaves an obligation under both disciplines, unless it reads
a row that was asked for and written before. -/
theorem Validates.record (h : t.Validates keys ran) (hsampled : t.sampled = true)
    {q : ReadyStatement} {args : List Value} {key : RowKey}
    (hrow : RunStatement.row keys ⟨q.statement, args⟩ = .ok (q.statement.relation, key))
    (hasks : q.statement.asks = true) (version : Option Nat) :
    (t.record q key version).Validates keys (ran ++ [⟨q.statement, args⟩]) where
  placed := placed_concat h.placed hrow
  obligations d := by
    obtain ⟨o, hplace, hkind, hunder⟩ := t.under_record q key version
    have hcovered : o.coveredBy (t.obligations.under d) = true ↔
        Touch.Rereads ((RunStatement.touches keys ran).filter (·.asked))
          ⟨(q.statement.relation, key), q.statement.kind, true⟩ := by
      rw [← hplace, ← hkind]
      exact h.coveredBy_iff d
    have hsingle : ([⟨(q.statement.relation, key), q.statement.kind, true⟩] : List Touch).filter
        (·.asked) = [⟨(q.statement.relation, key), q.statement.kind, true⟩] := rfl
    rw [hunder, hsampled, Bool.or_true, if_pos rfl, RunStatement.touches_concat ran hrow, hasks,
      List.filter_append, hsingle, Touch.fresh_concat, Obligation.record]
    by_cases hc : o.coveredBy (t.obligations.under d) = true
    · rw [if_pos hc, if_pos (hcovered.1 hc), List.append_nil, h.obligations]
    · rw [if_neg hc, if_neg (mt hcovered.2 hc), Obligation.sites, List.map_append, Touch.sites,
        List.map_append]
      exact congrArg₂ (· ++ ·) (h.obligations d) (by rw [List.map_singleton, hplace, hkind]; rfl)

/-- The plan of a sampled transaction asks for the rows that the transaction has asked for. -/
theorem Validates.mem_plan (h : t.Validates keys ran) (d : Discipline) :
    p ∈ (t.obligations.plan d).places ↔
      ∃ x ∈ RunStatement.touches keys ran, x.asked = true ∧ x.place = p := by
  have hplaces : (t.obligations.under d).map Obligation.place =
      (Touch.fresh ((RunStatement.touches keys ran).filter (·.asked))).map Touch.place := by
    have hfirst := congrArg (List.map Prod.fst) (h.obligations d)
    rwa [Obligation.sites, Touch.sites, List.map_map, List.map_map] at hfirst
  calc p ∈ (t.obligations.plan d).places
      ↔ ∃ o ∈ t.obligations.under d, o.place = p := LockPlan.mem_places_ofObligations
    _ ↔ p ∈ (t.obligations.under d).map Obligation.place := List.mem_map.symm
    _ ↔ ∃ x ∈ Touch.fresh ((RunStatement.touches keys ran).filter (·.asked)), x.place = p := by
        rw [hplaces, List.mem_map]
    _ ↔ ∃ x ∈ RunStatement.touches keys ran, x.asked = true ∧ x.place = p := by
        rw [Touch.exists_fresh]
        simp only [List.mem_filter, and_assoc]

end OpenTransaction

namespace Engine

/-- A transaction is sampled or not by its number, and the rule that numbers rows is that of the
store. -/
structure Samples (e : Engine) (settings : EngineConfig) (rule : KeyRule) : Prop where
  config : e.config = settings
  keys : e.keys = rule
  storeKeys : e.store.keys = rule
  sampled : ∀ id n t, e.open? id = some (n, t) → t.sampled = settings.samples n

variable {e : Engine} {w : Worker} {id : Nat} {t : OpenTransaction} {config : EngineConfig}
  {keys : KeyRule} {earlier : List RunStatement}

section Samples

theorem Samples.put (h : e.Samples config keys)
    (hw : ∀ t, w.current = some t → t.sampled = config.samples w.transaction) :
    (e.put w).Samples config keys where
  config := h.config
  keys := h.keys
  storeKeys := h.storeKeys
  sampled i n t ht := by
    rw [open?, worker?_put] at ht
    split at ht
    · obtain ⟨t', ht', hpair⟩ := Option.map_eq_some_iff.1 ht
      obtain ⟨rfl, rfl⟩ := Prod.mk.inj hpair
      exact hw t' ht'
    · exact h.sampled i n t ht

/-- A transaction that begins is sampled by the number that it gets. -/
theorem Samples.opened (h : e.Samples config keys) (hw : e.worker? id = some w)
    (template : Transaction) :
    (e.begun w template).Samples config keys ∧
      (e.opened w template).1.sampled = config.samples (e.beginner w template).transaction := by
  have hworkers := (begun_workers e w template).2.1
  obtain ⟨counters, next, hbegun⟩ := begun_eq e w template
  constructor
  · refine ⟨hbegun ▸ h.config, hbegun ▸ h.keys, hbegun ▸ h.storeKeys, fun i n t ht => ?_⟩
    rw [open?, worker?, hworkers] at ht
    exact h.sampled i n t ht
  · rcases opened_eq e w template with ⟨hcurrent, -, hbeginner⟩ | ⟨-, hopened, -, hbeginner⟩
    · rw [hbeginner]
      exact h.sampled id _ _ (by rw [open?_of_worker? hw, hcurrent, Option.map_some])
    · rw [hbeginner, hopened, ← h.config]

theorem Samples.execute (h : e.Samples config keys) (id : Nat) (name : String) (index : Nat)
    (args : List Value) : (e.execute id name index args).2.Samples config keys := by
  cases hw : e.worker? id with
  | none =>
      rw [execute_of_none hw]
      exact h
  | some w =>
      have hexecuted := execute_inv hw name index args
      generalize e.execute id name index args = x at hexecuted
      obtain ⟨answer, e'⟩ := x
      cases hexecuted with
      | refused f _ => exact h
      | keyless q f _ _ =>
          obtain ⟨hbegun, hsampled⟩ := h.opened hw q.template
          refine hbegun.put fun t ht => ?_
          rw [(begun_workers e w q.template).2.2.2] at ht
          rw [← Option.some.inj ht]
          exact hsampled
      | lost q key f _ _ _ =>
          obtain ⟨hbegun, -⟩ := h.opened hw q.template
          rw [abandon_eq]
          exact Samples.put ⟨hbegun.config, hbegun.keys, hbegun.storeKeys, hbegun.sampled⟩ nofun
      | answered q key outcome link _ _ _ =>
          obtain ⟨hbegun, hsampled⟩ := h.opened hw q.template
          refine hbegun.put fun t ht => ?_
          rw [← Option.some.inj ht, sampled_elim]
          exact hsampled

theorem Samples.turn (h : e.Samples config keys) (hn : e.Numbered) (turn : Turn) :
    (e.turn turn).2.Samples config keys := by
  by_cases hexecute : ∃ id name index args, turn = .plain (.action (.execute id name index args))
  · obtain ⟨id, name, index, args, rfl⟩ := hexecute
    simp only [Engine.turn, occur, take]
    split
    · exact h
    · exact h.execute id name index args
  · have hrests := hn.rests_turn fun id name index args he => hexecute ⟨id, name, index, args, he⟩
    exact ⟨hrests.config.trans h.config, hrests.keys.trans h.keys,
      hrests.storeKeys.trans h.storeKeys, fun i n t ht => h.sampled i n t (hrests.kept i _ ht)⟩

theorem samples_create {workload : Workload} (hcreate : create workload config keys = .ok e) :
    e.Samples config keys := by
  obtain ⟨protocol, locks, -, -, rfl⟩ := create_eq_ok hcreate
  exact ⟨rfl, rfl, rfl, nofun⟩

theorem Samples.through (h : e.Samples config keys) (hseated : e.Seated) (turns : List Turn) :
    (e.through turns).Samples config keys := by
  have hkeep : ∀ turn ∈ turns, ∀ e : Engine, e.Samples config keys ∧ e.Seated →
      (e.turn turn).2.Samples config keys ∧ (e.turn turn).2.Seated :=
    fun turn _ _ h => ⟨h.1.turn h.2.numbered turn, h.2.turn turn⟩
  exact (through_induction hkeep ⟨h, hseated⟩).1

end Samples

section Validates

/-- The row of a statement that has been run is the one that the store has touched. -/
theorem row_of_runs? {turn : Turn} {r : RunStatement} (hran : e.runs? id turn = some r) :
    ∃ p, r.row e.store.keys = .ok p := by
  unfold runs? at hran
  split at hran
  · rename_i i name index args
    split at hran
    · rename_i hruns
      obtain ⟨rfl, -, hok⟩ := hruns
      cases hw : e.worker? i with
      | none =>
          rw [execute_of_none hw] at hok
          cases hok
      | some w =>
          have hexecuted := execute_inv hw name index args
          generalize e.execute i name index args = x at hexecuted hok
          obtain ⟨answer, e'⟩ := x
          cases hexecuted with
          | refused f _ => cases hok
          | keyless q f _ _ => cases hok
          | lost q key f _ _ _ => cases hok
          | answered q key outcome link hready hkey hexec =>
              obtain ⟨htemplate, hstatement, -⟩ := ready_inv hready
              rw [htemplate, Option.bind_some, hstatement] at hran
              obtain ⟨-, o, c, hconnection, -⟩ := Link.execute_eq_ok.1 hexec
              obtain ⟨-, p, hplace, -⟩ := Connection.execute_eq_ok.1 hconnection
              obtain ⟨counters, next, hbegun⟩ := begun_eq e w q.template
              rw [hbegun] at hplace
              exact ⟨p, Option.some.inj hran ▸ hplace⟩
    · cases hran
  · cases hran

/-- What a sampled transaction has to validate goes on being what it has asked for. -/
theorem Seated.validates_turn {turn : Turn} (h : e.Seated) (hsamples : e.Samples config keys)
    (hvalid : ∀ t, e.current? id = some t → t.sampled = true → t.Validates keys earlier)
    (ht : (e.turn turn).2.current? id = some t) (hsampled : t.sampled = true) :
    t.Validates keys
      ((if (e.current? id).isSome then earlier else []) ++ (e.runs? id turn).toList) := by
  cases h.goesOn ht with
  | keeps _ hcurrent hran =>
      rw [hcurrent, hran, Option.isSome_some, if_pos rfl, Option.toList_none, List.append_nil]
      exact hvalid t hcurrent hsampled
  | begins template sampled hnone hran =>
      rw [hnone, hran]
      exact OpenTransaction.validates_begin keys template sampled
  | executes w hw name index args q key version hready hkey hran =>
      rw [sampled_elim] at hsampled
      have hopened : (e.opened w q.template).1.Validates keys
          (if (e.current? id).isSome then earlier else []) := by
        rw [current?_of_worker? hw]
        rcases opened_eq e w q.template with ⟨hcurrent, -, -⟩ | ⟨hnone, hopened, -, -⟩
        · rw [hcurrent, Option.isSome_some, if_pos rfl]
          exact hvalid _ ((current?_of_worker? hw).trans hcurrent) hsampled
        · rw [hnone, hopened]
          exact OpenTransaction.validates_begin keys q.template _
      have hasks := keyIn_asks hready hkey
      rw [hsampled, Bool.or_true, Bool.and_true] at hasks
      rw [hran, Option.toList_some]
      cases key with
      | none =>
          obtain ⟨p, hrow⟩ := row_of_runs? hran
          rw [hsamples.storeKeys] at hrow
          exact hopened.skip hrow hasks.symm
      | some k =>
          obtain ⟨columns, hresolve, hrule⟩ :=
            keyIn_of_ready hready (e.keys_begun w q.template) hkey
          rw [hsamples.keys] at hrule
          exact hopened.record hsampled (RunStatement.row_eq hresolve hrule) hasks.symm version

/-- In all runs, what a sampled transaction has to validate is what it has asked for. -/
theorem validates_through {workload : Workload} (hcreate : create workload config keys = .ok e)
    (turns : List Turn) (hw : (e.through turns).worker? id = some w) (ht : w.current = some t)
    (hsampled : t.sampled = true) : t.Validates keys (e.ran id turns) := by
  refine ran_induction (Q := fun e => e.Seated ∧ e.Samples config keys)
    (P := fun t ran => t.sampled = true → t.Validates keys ran) ?_ ?_ turns
    ⟨seated_create hcreate, samples_create hcreate⟩ ?_ t ((current?_of_worker? hw).trans ht)
    hsampled
  · rintro e turn ⟨hseated, hsamples⟩
    exact ⟨hseated.turn turn, hsamples.turn hseated.numbered turn⟩
  · rintro e turn earlier t ⟨hseated, hsamples⟩ hvalid ht hsampled
    exact hseated.validates_turn hsamples hvalid ht hsampled
  · obtain ⟨protocol, locks, -, -, rfl⟩ := create_eq_ok hcreate
    exact nofun

/-- A transaction whose number is a multiple of the setting is sampled. -/
theorem sampled_through {workload : Workload} (hcreate : create workload config keys = .ok e)
    (turns : List Turn) (hw : (e.through turns).worker? id = some w) (ht : w.current = some t)
    (hevery : 0 < config.sampleEvery) (hnumber : config.sampleEvery ∣ w.transaction) :
    t.sampled = true := by
  have hsamples := (samples_create hcreate).through (seated_create hcreate) turns
  have hopen : (e.through turns).open? id = some (w.transaction, t) := by
    rw [open?_of_worker? hw, ht, Option.map_some]
  rw [hsamples.sampled id _ t hopen, EngineConfig.samples, Bool.and_eq_true, bne_iff_ne, beq_iff_eq]
  exact ⟨hevery.ne', Nat.mod_eq_zero_of_dvd hnumber⟩

end Validates

/-- Whatever happens to an engine, every statement that an open transaction has run has touched the
row that its arguments give. Where the number of the transaction is a multiple of the setting, its
obligations are, under both disciplines alike, those of the statements that are marked or bind a
column, without reads and scans of rows that such a statement has written before; and its commit
asks for the rows that such statements have touched. So there is an obligation for every statement,
but for reads and scans of rows that the transaction has written before, if and only if all of
these statements are marked or bind a column. -/
theorem sampled_validates_all_iff {workload : Workload}
    (hcreate : create workload config keys = .ok e) (turns : List Turn)
    (hworker : (e.through turns).worker? id = some w) (ht : w.current = some t)
    (hevery : 0 < config.sampleEvery) (hnumber : config.sampleEvery ∣ w.transaction) :
    (∀ r ∈ e.ran id turns, ∃ p, r.row keys = .ok p ∧
      (e.through turns).store.placeOf r.statement r.args = .ok p) ∧
    (∀ d, Obligation.sites (t.obligations.under d) =
        Touch.sites (Touch.fresh ((RunStatement.touches keys (e.ran id turns)).filter (·.asked))) ∧
      (Obligation.sites (t.obligations.under d) =
          Touch.sites (Touch.fresh (RunStatement.touches keys (e.ran id turns))) ↔
        ∀ x ∈ Touch.fresh (RunStatement.touches keys (e.ran id turns)), x.asked = true) ∧
      (t.obligations.plan d).places.Nodup ∧
      ∀ p, p ∈ (t.obligations.plan d).places ↔
        ∃ x ∈ RunStatement.touches keys (e.ran id turns), x.asked = true ∧ x.place = p) ∧
    ∀ d, (e.through turns).barrier.required.discipline? = some d → w.blocked = none →
      ∀ turn, turn.Commits id w →
        Takes (e.through turns) w t d ((e.through turns).turn turn) := by
  have hsteady := (steady_create hcreate).through turns
  have hsamples := (samples_create hcreate).through (seated_create hcreate) turns
  have hvalid := validates_through hcreate turns hworker ht
    (sampled_through hcreate turns hworker ht hevery hnumber)
  refine ⟨?_, ?_, ?_⟩
  · intro r hr
    obtain ⟨p, hrow⟩ := hvalid.placed r hr
    refine ⟨p, hrow, ?_⟩
    rw [Store.placeOf, hsamples.storeKeys]
    exact hrow
  · intro d
    refine ⟨hvalid.obligations d, ?_, LockPlan.nodup_places_ofObligations _, fun p =>
      hvalid.mem_plan d⟩
    rw [hvalid.obligations d]
    exact Touch.sites_fresh_filter_iff
  · intro d hd hfree turn hturn
    obtain ⟨down, hproceeds⟩ := proceeds_of_commits hworker ht hfree hd hturn
    exact hsteady.takes ((hsteady.tidy id w hworker).within t ht) hproceeds

/-- A transaction scans a relation as a whole and reads a row of it. Nothing in it is dangerous. -/
def looking : List RegistryCall :=
  [.transaction "look", .statement SqlRule.identity "look" { kind := .scan, relation := "x" },
    .statement SqlRule.identity "look"
      { kind := .read, relation := "x", bindings := [⟨0, "id"⟩] }]

/-- Every transaction is sampled. -/
def samplingAll : EngineConfig := { EngineConfig.ofProtocol .snapshot with sampleEvery := 1 }

/-- The relation is scanned. -/
def lookedOnce : List Turn :=
  [.plain (.action (.connect 1)), .plain (.action (.execute 1 "look" 0 []))]

/-- Then a row is read. -/
def lookedTwice : List Turn :=
  lookedOnce ++ [.plain (.action (.execute 1 "look" 1 [.int 1]))]

/-- A worker that can commit has a transaction open for which a test of the number and of the
transaction is passed. -/
def opens (e : Engine) (id : Nat) (test : Nat → OpenTransaction → Bool) : Bool :=
  (e.worker? id).any fun w => w.blocked.isNone && w.current.any (test w.transaction)

theorem exists_of_opens {test : Nat → OpenTransaction → Bool} (h : e.opens id test = true) :
    ∃ w t, e.worker? id = some w ∧ w.current = some t ∧ w.blocked = none ∧
      test w.transaction t = true := by
  obtain ⟨w, hw, h⟩ := (Option.any_eq_true _ _).1 h
  obtain ⟨hfree, h⟩ := Bool.and_eq_true_iff.1 h
  obtain ⟨t, ht, htest⟩ := (Option.any_eq_true _ _).1 h
  exact ⟨w, t, hw, ht, Option.isNone_iff_eq_none.1 hfree, htest⟩

/-- The scan binds no column and leaves no obligation, while the read leaves one. The commit locks
the row that was read. -/
theorem looked_validates_iff :
    ∃ workload e w t, (Registry.run looking).analyze = .ok workload ∧
      create workload samplingAll RowKey.standard = .ok e ∧
      (e.through lookedTwice).worker? 1 = some w ∧ w.current = some t ∧
      0 < samplingAll.sampleEvery ∧ samplingAll.sampleEvery ∣ w.transaction ∧
      t.obligations.plan .snapshot = [⟨"x", 1, .shared⟩] ∧
      (∀ d, Obligation.sites (t.obligations.under d) =
          Touch.sites (Touch.fresh
            (RunStatement.touches RowKey.standard (e.ran 1 lookedTwice))) ↔
        ∀ x ∈ Touch.fresh (RunStatement.touches RowKey.standard (e.ran 1 lookedTwice)),
          x.asked = true) ∧
      Takes (e.through lookedTwice) w t .snapshot
        ((e.through lookedTwice).turn (.plain (.action (.finish 1 .commit)))) := by
  obtain ⟨workload, hanalyze, e, hcreate, hopens, hrequired⟩ :
      ∃ workload, (Registry.run looking).analyze = .ok workload ∧
        ∃ e, create workload samplingAll RowKey.standard = .ok e ∧
          (e.through lookedTwice).opens 1 (fun _ t =>
            t.obligations.plan .snapshot == [⟨"x", 1, .shared⟩]) = true ∧
          (e.through lookedTwice).barrier.required.discipline? = some .snapshot :=
    ⟨_, rfl, exists_create _ _ _ _ (by decide +kernel)⟩
  obtain ⟨w, t, hw, ht, hfree, hplan⟩ := exists_of_opens hopens
  have hevery : 0 < samplingAll.sampleEvery := by decide
  have hnumber : samplingAll.sampleEvery ∣ w.transaction := one_dvd _
  obtain ⟨-, hvalidates, htakes⟩ :=
    sampled_validates_all_iff hcreate lookedTwice hw ht hevery hnumber
  exact ⟨workload, e, w, t, hanalyze, hcreate, hw, ht, hevery, hnumber, eq_of_beq hplan,
    fun d => (hvalidates d).2.1, htakes .snapshot hrequired hfree _ .plain⟩

/-- A scan that binds no column leaves no obligation in a sampled transaction, and the commit asks
for no row. -/
theorem scan_not_validated :
    ∃ workload e w t, (Registry.run looking).analyze = .ok workload ∧
      create workload samplingAll RowKey.standard = .ok e ∧
      (e.through lookedOnce).worker? 1 = some w ∧ w.current = some t ∧
      0 < samplingAll.sampleEvery ∧ samplingAll.sampleEvery ∣ w.transaction ∧
      (RunStatement.touches RowKey.standard (e.ran 1 lookedOnce)).map
          (fun x => (x.place.1, x.kind)) = [("x", .scan)] ∧
      ∀ d, t.obligations.under d = [] ∧ t.obligations.plan d = [] := by
  obtain ⟨workload, hanalyze, e, hcreate, hopens, htouches⟩ :
      ∃ workload, (Registry.run looking).analyze = .ok workload ∧
        ∃ e, create workload samplingAll RowKey.standard = .ok e ∧
          (e.through lookedOnce).opens 1 (fun _ t => t.obligations == {}) = true ∧
          (RunStatement.touches RowKey.standard (e.ran 1 lookedOnce)).map
            (fun x => (x.place.1, x.kind)) = [("x", .scan)] :=
    ⟨_, rfl, exists_create _ _ _ _ (by decide +kernel)⟩
  obtain ⟨w, t, hw, ht, -, hnone⟩ := exists_of_opens hopens
  refine ⟨workload, e, w, t, hanalyze, hcreate, hw, ht, by decide, one_dvd _, htouches, ?_⟩
  intro d
  rw [eq_of_beq hnone]
  cases d <;> exact ⟨rfl, rfl⟩

end Engine

end LiveIsolation
