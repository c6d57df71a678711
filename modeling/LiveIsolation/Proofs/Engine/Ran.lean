import LiveIsolation.Proofs.Engine.Covering
import LiveIsolation.Proofs.Engine.Seats

/-!
# What transactions have run

A run is followed together with the statements that the open transaction of a worker has run
(`Engine.ran`), whatever protocol was in force at the time of each. Where a transaction is not
sampled, its obligations under a discipline are on the rows of the statements marked for that
discipline, and on no others (`OpenTransaction.Accounts`): a read that is left out stands for no row
of its own. Which protocol a worker runs, or a commit would follow, plays no part in it.
-/

namespace LiveIsolation

/-- A statement that has been run with some arguments. -/
structure RunStatement where
  statement : Statement
  args : List Value

/-- The row that a statement is about, which its arguments give. -/
def RunStatement.row (keys : KeyRule) (r : RunStatement) : Except Fault Place := do
  let columns ← r.statement.resolve r.args
  let key ← keys r.statement.relation columns
  return (r.statement.relation, key)

/-- A row of a statement that has been run and that is marked for a discipline. -/
def RunStatement.Marked (keys : KeyRule) (ran : List RunStatement) (d : Discipline) (p : Place) :
    Prop :=
  ∃ r ∈ ran, r.statement.validated d = true ∧ r.row keys = .ok p

/-- A row of a write that has been run. -/
def RunStatement.Wrote (keys : KeyRule) (ran : List RunStatement) (p : Place) : Prop :=
  ∃ r ∈ ran, r.statement.kind.isWrite = true ∧ r.row keys = .ok p

theorem RunStatement.row_eq {keys : KeyRule} {r : RunStatement} {columns : Columns} {key : RowKey}
    (hresolve : r.statement.resolve r.args = .ok columns)
    (hkey : keys r.statement.relation columns = .ok key) :
    r.row keys = .ok (r.statement.relation, key) := by
  simp only [row, hresolve, bind, Except.bind, hkey]
  rfl

theorem Statement.validatedAny_of_validated {s : Statement} {d : Discipline}
    (h : s.validated d = true) : s.validatedAny = true := by
  cases d with
  | snapshot => exact Bool.or_eq_true_iff.2 (.inl h)
  | readCommitted => exact Bool.or_eq_true_iff.2 (.inr h)

namespace Obligation

/-- Whether it is recorded or covered, an obligation has its row among those recorded. -/
theorem exists_place_record {earlier : List Obligation} {o : Obligation} {p : Place} :
    (∃ x ∈ record earlier o, x.place = p) ↔ (∃ x ∈ earlier, x.place = p) ∨ o.place = p := by
  constructor
  · rintro ⟨x, hx, hplace⟩
    rcases mem_record.1 hx with hold | ⟨rfl, -⟩
    · exact .inl ⟨x, hold, hplace⟩
    · exact .inr hplace
  · rintro (⟨x, hx, hplace⟩ | rfl)
    · exact ⟨x, mem_record.2 (.inl hx), hplace⟩
    · obtain ⟨r, hr, hplace, -⟩ := Obligations.exists_mem_record earlier o
      exact ⟨r, hr, hplace⟩

end Obligation

namespace OpenTransaction

variable {keys : KeyRule} {t : OpenTransaction} {ran : List RunStatement} {r : RunStatement}

/-- What a transaction has gathered is what it has run: a marked statement has its row, the
obligations under a discipline are on the rows of the statements marked for it, and the written rows
are rows of writes. -/
structure Accounts (keys : KeyRule) (t : OpenTransaction) (ran : List RunStatement) : Prop where
  placed : ∀ r ∈ ran, r.statement.validatedAny = true → ∃ p, r.row keys = .ok p
  obligations : ∀ d p, (∃ o ∈ t.obligations.under d, o.place = p) ↔ RunStatement.Marked keys ran d p
  written : ∀ x ∈ t.written, RunStatement.Wrote keys ran x.1

theorem accounts_begin (keys : KeyRule) (template : Transaction) (sampled : Bool) :
    Accounts keys { template, sampled } [] where
  placed _ hr := absurd hr List.not_mem_nil
  obligations d p := by
    cases d <;> simp [Obligations.under, RunStatement.Marked]
  written _ hx := absurd hx List.not_mem_nil

/-- A statement leaves one obligation under each discipline that it is marked for. -/
theorem under_record (t : OpenTransaction) (q : ReadyStatement) (key : RowKey)
    (version : Option Nat) :
    ∃ o : Obligation, o.place = (q.statement.relation, key) ∧ o.kind = q.statement.kind ∧ ∀ d,
      (t.record q key version).obligations.under d =
        if q.statement.validated d || t.sampled then Obligation.record (t.obligations.under d) o
        else t.obligations.under d := by
  refine ⟨⟨⟨q.template.id, q.index⟩, q.statement.relation, key, q.statement.kind,
    if q.statement.kind.isWrite then version.map (· - 1) else version⟩, rfl, rfl, ?_⟩
  intro d
  cases d with
  | snapshot => rfl
  | readCommitted => rfl

/-- One more statement has been run, and may have left something with the transaction. -/
theorem Accounts.concat {t' : OpenTransaction} (h : t.Accounts keys ran)
    (hplaced : r.statement.validatedAny = true → ∃ p, r.row keys = .ok p)
    (hobligations : ∀ d p, (∃ o ∈ t'.obligations.under d, o.place = p) ↔
      (∃ o ∈ t.obligations.under d, o.place = p) ∨
        r.statement.validated d = true ∧ r.row keys = .ok p)
    (hwritten : ∀ x ∈ t'.written,
      x ∈ t.written ∨ r.statement.kind.isWrite = true ∧ r.row keys = .ok x.1) :
    t'.Accounts keys (ran ++ [r]) where
  placed x hx := by
    rcases List.mem_append.1 hx with hx | hx
    · exact h.placed x hx
    · rw [List.mem_singleton.1 hx]
      exact hplaced
  obligations d p := by
    rw [hobligations, h.obligations]
    simp only [RunStatement.Marked, List.mem_append, List.mem_singleton, or_and_right, exists_or,
      exists_eq_left]
  written x hx := by
    rcases hwritten x hx with hold | hnew
    · obtain ⟨r', hr', hwrite⟩ := h.written x hold
      exact ⟨r', List.mem_append_left [r] hr', hwrite⟩
    · exact ⟨r, by simp, hnew⟩

/-- A statement that is not marked leaves nothing if its row is not asked for. -/
theorem Accounts.skip (h : t.Accounts keys ran) (hmarks : r.statement.validatedAny = false) :
    t.Accounts keys (ran ++ [r]) := by
  have hnever : ∀ d, r.statement.validated d ≠ true := fun d hd => by
    rw [Statement.validatedAny_of_validated hd] at hmarks
    cases hmarks
  refine h.concat ?_ ?_ fun x hx => .inl hx
  · rw [hmarks]
    exact nofun
  · intro d p
    simp [hnever d]

/-- A statement on a row leaves it under the disciplines that the statement is marked for. -/
theorem Accounts.record (h : t.Accounts keys ran) (hsampled : t.sampled = false)
    {q : ReadyStatement} {args : List Value} {key : RowKey}
    (hrow : RunStatement.row keys ⟨q.statement, args⟩ = .ok (q.statement.relation, key))
    (version : Option Nat) :
    (t.record q key version).Accounts keys (ran ++ [⟨q.statement, args⟩]) := by
  refine h.concat (fun _ => ⟨_, hrow⟩) ?_ ?_
  · intro d p
    obtain ⟨o, hplace, -, hunder⟩ := t.under_record q key version
    rw [hunder, hsampled, Bool.or_false, hrow, Except.ok.injEq, ← hplace]
    cases hmark : q.statement.validated d with
    | true => simp only [if_true, true_and, Obligation.exists_place_record]
    | false => simp only [Bool.false_eq_true, if_false, false_and, or_false]
  · intro x hx
    simp only [OpenTransaction.record] at hx
    split at hx
    · rename_i hwrite
      rcases List.mem_append.1 hx with hx | hx
      · exact .inl hx
      · rw [List.mem_singleton.1 hx]
        exact .inr ⟨hwrite, hrow⟩
    · exact .inl hx

end OpenTransaction

namespace Engine

variable {e : Engine} {w : Worker} {id : Nat} {t : OpenTransaction} {turn : Turn}

/-- The statement that a worker runs in a turn. One that is refused, or that the store fails, is not
run. -/
def runs? (e : Engine) (id : Nat) : Turn → Option RunStatement
  | .plain (.action (.execute i name index args)) =>
    if i = id ∧ e.busy id = false ∧ (e.execute id name index args).1.toBool = true then
      ((e.workload.find? name).bind (·.statements[index]?)).map (⟨·, args⟩)
    else none
  | _ => none

/-- What the open transaction of a worker has run after some turns, if the one that was open before
them had run `earlier`. A transaction has run nothing when it begins. -/
def ranAfter (e : Engine) (id : Nat) (earlier : List RunStatement) :
    List Turn → List RunStatement
  | [] => earlier
  | turn :: rest =>
    (e.turn turn).2.ranAfter id
      ((if (e.current? id).isSome then earlier else []) ++ (e.runs? id turn).toList) rest

/-- What the open transaction of a worker has run in some turns. -/
def ran (e : Engine) (id : Nat) (turns : List Turn) : List RunStatement := e.ranAfter id [] turns

/-- How the transaction that a worker has open after a turn has come about. -/
inductive GoesOn (e : Engine) (id : Nat) (turn : Turn) : OpenTransaction → Prop where
  | keeps (t : OpenTransaction) (ht : e.current? id = some t) (hran : e.runs? id turn = none) :
    GoesOn e id turn t
  /-- A transaction has begun, but the rule has no row for its first statement. -/
  | begins (template : Transaction) (sampled : Bool) (hnone : e.current? id = none)
    (hran : e.runs? id turn = none) : GoesOn e id turn { template, sampled }
  | executes (w : Worker) (hw : e.worker? id = some w) (name : String) (index : Nat)
    (args : List Value) (q : ReadyStatement) (key : Option RowKey) (version : Option Nat)
    (hready : e.ready w name index args = .ok q)
    (hkey : (e.begun w q.template).keyIn (e.opened w q.template).1 q = .ok key)
    (hran : e.runs? id turn = some ⟨q.statement, args⟩) :
    GoesOn e id turn (key.elim (e.opened w q.template).1 fun k =>
      (e.opened w q.template).1.record q k version)

section Turns

theorem Seated.numbered (h : e.Seated) : e.Numbered := fun id w hw => (h id w hw).1

theorem runs?_of_not_execute
    (h : ∀ id name index args, turn ≠ .plain (.action (.execute id name index args))) (id : Nat) :
    e.runs? id turn = none := by
  unfold runs?
  split
  · exact absurd rfl (h _ _ _ _)
  · rfl

theorem keys_begun (e : Engine) (w : Worker) (template : Transaction) :
    (e.begun w template).keys = e.keys := by
  obtain ⟨counters, next, hbegun⟩ := begun_eq e w template
  rw [hbegun]

/-- The rule that numbers rows stays. -/
theorem Numbered.keys_turn (hn : e.Numbered) (turn : Turn) : (e.turn turn).2.keys = e.keys := by
  by_cases hexecute : ∃ id name index args, turn = .plain (.action (.execute id name index args))
  · obtain ⟨id, name, index, args, rfl⟩ := hexecute
    simp only [Engine.turn, occur, take]
    split
    · rfl
    · cases hw : e.worker? id with
      | none => rw [execute_of_none hw]
      | some w =>
          have hexecuted := execute_inv hw name index args
          generalize e.execute id name index args = x at hexecuted
          obtain ⟨answer, e'⟩ := x
          cases hexecuted with
          | refused f _ => rfl
          | keyless q f _ _ => exact e.keys_begun w q.template
          | lost q key f _ _ _ => exact e.keys_begun w q.template
          | answered q key outcome link _ _ _ => exact e.keys_begun w q.template
  · refine (hn.rests_turn fun id name index args he => ?_).keys
    exact hexecute ⟨id, name, index, args, he⟩

/-- A worker that is not busy executes a statement. -/
theorem Seated.goesOn_execute (h : e.Seated) (hidle : e.busy id = false) (name : String)
    (index : Nat) (args : List Value)
    (ht : (e.execute id name index args).2.current? id = some t) :
    e.GoesOn id (.plain (.action (.execute id name index args))) t := by
  have hruns : e.runs? id (.plain (.action (.execute id name index args))) =
      if (e.execute id name index args).1.toBool = true then
        ((e.workload.find? name).bind (·.statements[index]?)).map (⟨·, args⟩)
      else none := by
    simp only [runs?, hidle, true_and]
  cases hw : e.worker? id with
  | none =>
      rw [execute_of_none hw] at ht hruns
      exact .keeps t ht hruns
  | some w =>
      have hexecuted := execute_inv hw name index args
      generalize e.execute id name index args = x at hexecuted ht hruns
      obtain ⟨answer, e'⟩ := x
      have hput : ∀ template (e₁ : Engine) (w₁ : Worker), w₁.id = (e.beginner w template).id →
          (e₁.put w₁).current? id = w₁.current := by
        intro template e₁ w₁ hid
        rw [current?_put, if_pos]
        rw [hid, (begun_workers e w template).2.2.1, (h id w hw).1]
      cases hexecuted with
      | refused f hready => exact .keeps t ht hruns
      | keyless q f hready hkey =>
          have hcurrent := (hput q.template _ (e.beginner w q.template) rfl).symm.trans ht
          rw [(begun_workers e w q.template).2.2.2] at hcurrent
          obtain rfl := Option.some.inj hcurrent
          rcases opened_eq e w q.template with ⟨hcurrent, -, -⟩ | ⟨hnone, hopened, -, -⟩
          · exact .keeps _ ((current?_of_worker? hw).trans hcurrent) hruns
          · rw [hopened]
            exact .begins _ _ ((current?_of_worker? hw).trans hnone) hruns
      | lost q key f hready hkey hexec =>
          have hcurrent := (hput q.template _
            ((e.begun w q.template).abandon (e.beginner w q.template)).2 rfl).symm.trans ht
          cases hcurrent
      | answered q key outcome link hready hkey hexec =>
          have hcurrent := (hput q.template _ { e.beginner w q.template with
            link
            current := some (key.elim (e.opened w q.template).1 fun k =>
              (e.opened w q.template).1.record q k outcome.version) } rfl).symm.trans ht
          obtain rfl := Option.some.inj hcurrent
          refine .executes w hw name index args q key outcome.version hready hkey ?_
          obtain ⟨htemplate, hstatement, -⟩ := ready_inv hready
          rw [hruns, htemplate, Option.bind_some, hstatement]
          rfl

/-- Every open transaction was open before the last turn, or has begun or gone on in it. -/
theorem Seated.goesOn (h : e.Seated) (ht : (e.turn turn).2.current? id = some t) :
    e.GoesOn id turn t := by
  by_cases hexecute : ∃ i name index args, turn = .plain (.action (.execute i name index args))
  · obtain ⟨i, name, index, args, rfl⟩ := hexecute
    by_cases hi : i = id
    · subst hi
      cases hidle : e.busy i with
      | true =>
          simp only [Engine.turn, occur, take_execute_of_busy hidle] at ht
          refine .keeps t ht ?_
          simp [runs?, hidle]
      | false =>
          simp only [Engine.turn, occur, take, hidle, Bool.false_eq_true, if_false] at ht
          exact h.goesOn_execute hidle name index args ht
    · have hother := (h.concerns_turn (.plain (.action (.execute i name index args)))).workers id
        fun he => hi (Option.some.inj he)
      rw [current?, hother] at ht
      refine .keeps t ht ?_
      simp [runs?, hi]
  · have hother : ∀ i name index args, turn ≠ .plain (.action (.execute i name index args)) :=
      fun i name index args he => hexecute ⟨i, name, index, args, he⟩
    exact .keeps t ((h.numbered.rests_turn hother).idles.current id t ht)
      (runs?_of_not_execute hother id)

end Turns

/-- What holds of a transaction and what it has run holds after every run, if each turn keeps it;
the engine itself keeps some property meanwhile. -/
theorem ran_induction {Q : Engine → Prop} {P : OpenTransaction → List RunStatement → Prop}
    (hkeep : ∀ e turn, Q e → Q (e.turn turn).2)
    (hturn : ∀ e turn earlier t, Q e → (∀ t, e.current? id = some t → P t earlier) →
      (e.turn turn).2.current? id = some t →
        P t ((if (e.current? id).isSome then earlier else []) ++ (e.runs? id turn).toList))
    (turns : List Turn) {earlier : List RunStatement} (hQ : Q e)
    (hP : ∀ t, e.current? id = some t → P t earlier) (t : OpenTransaction)
    (ht : (e.through turns).current? id = some t) : P t (e.ranAfter id earlier turns) := by
  -- the engine changes from turn to turn, and with it what has been run so far
  induction turns generalizing e earlier with
  | nil => exact hP t ht
  | cons turn rest ih =>
      exact ih (hkeep e turn hQ) (fun t' ht' => hturn e turn earlier t' hQ hP ht') ht

section Accounts

variable {keys : KeyRule} {earlier : List RunStatement}

theorem key_of_keyIn {q : ReadyStatement} (h : e.keyIn t q = .ok none) : q.key = none := by
  simp only [keyIn] at h
  split at h
  · assumption
  · exact Except.ok.inj h

theorem sampled_elim (t : OpenTransaction) (q : ReadyStatement) (key : Option RowKey)
    (version : Option Nat) :
    (key.elim t fun k => t.record q k version).sampled = t.sampled := by
  cases key with
  | none => rfl
  | some k => rfl

/-- What a transaction has gathered goes on being what it has run. -/
theorem Seated.accounts_turn (h : e.Seated)
    (haccounts : ∀ t, e.current? id = some t → t.sampled = false → t.Accounts e.keys earlier)
    (ht : (e.turn turn).2.current? id = some t) (hsampled : t.sampled = false) :
    t.Accounts e.keys
      ((if (e.current? id).isSome then earlier else []) ++ (e.runs? id turn).toList) := by
  cases h.goesOn ht with
  | keeps _ hcurrent hran =>
      rw [hcurrent, hran, Option.isSome_some, if_pos rfl, Option.toList_none, List.append_nil]
      exact haccounts t hcurrent hsampled
  | begins template sampled hnone hran =>
      rw [hnone, hran]
      exact OpenTransaction.accounts_begin e.keys template sampled
  | executes w hw name index args q key version hready hkey hran =>
      rw [sampled_elim] at hsampled
      have hopened : (e.opened w q.template).1.Accounts e.keys
          (if (e.current? id).isSome then earlier else []) := by
        rw [current?_of_worker? hw]
        rcases opened_eq e w q.template with ⟨hcurrent, -, -⟩ | ⟨hnone, hopened, -, -⟩
        · rw [hcurrent, Option.isSome_some, if_pos rfl]
          exact haccounts _ ((current?_of_worker? hw).trans hcurrent) hsampled
        · rw [hnone, hopened]
          exact OpenTransaction.accounts_begin e.keys q.template _
      rw [hran, Option.toList_some]
      cases key with
      | none =>
          -- a statement that is marked would have asked for its row
          obtain ⟨-, -, columns, -, -, hmarked, -⟩ := ready_inv hready
          apply hopened.skip
          rw [Bool.eq_false_iff]
          intro hmarks
          have hsome := hmarked hmarks
          rw [key_of_keyIn hkey] at hsome
          cases hsome
      | some k =>
          obtain ⟨columns, hresolve, hrule⟩ :=
            keyIn_of_ready hready (e.keys_begun w q.template) hkey
          exact hopened.record hsampled (RunStatement.row_eq hresolve hrule) version

/-- In all runs, what a transaction that is not sampled has gathered is what it has run. -/
theorem accounts_through {workload : Workload} {config : EngineConfig}
    (hcreate : create workload config keys = .ok e) (turns : List Turn)
    (hw : (e.through turns).worker? id = some w) (ht : w.current = some t)
    (hsampled : t.sampled = false) : t.Accounts keys (e.ran id turns) := by
  have hseated := seated_create hcreate
  obtain ⟨protocol, locks, -, -, rfl⟩ := create_eq_ok hcreate
  refine ran_induction (Q := fun e => e.Seated ∧ e.keys = keys)
    (P := fun t ran => t.sampled = false → t.Accounts keys ran) ?_ ?_ turns ⟨hseated, rfl⟩ nofun t
    ((current?_of_worker? hw).trans ht) hsampled
  · rintro e turn ⟨hseated, hkeys⟩
    exact ⟨hseated.turn turn, (hseated.numbered.keys_turn turn).trans hkeys⟩
  · rintro e turn earlier t ⟨hseated, hkeys⟩ haccounts ht hsampled
    rw [← hkeys] at haccounts ⊢
    exact hseated.accounts_turn haccounts ht hsampled

end Accounts

end Engine

end LiveIsolation
