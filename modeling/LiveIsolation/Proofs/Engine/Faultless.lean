import LiveIsolation.Proofs.Analysis
import LiveIsolation.Proofs.Engine.Solo
import LiveIsolation.Proofs.Engine.Underway

/-!
# Nothing goes wrong inside

A fault of the class `internal` reports an error of the program: a relation that the lock table does
not know, a lock that is given back without being held, a transaction that is turned away without a
conflict. Over the workload of an analysis no call ever ends with one, however the calls of the
workers overlap: the commits under way ask only for relations of the workload and hold the locks
that they give back (`Overlap.Proper`). The number of a template is its place, so that a worker
finds the template of its transaction there.
-/

namespace LiveIsolation

/-- A rule refuses to number rows only for the columns that it is given. -/
def KeyRule.Lawful (keys : KeyRule) : Prop :=
  ∀ relation columns f, keys relation columns = .error f → f.cls = .invalidInput

theorem RowKey.lawful_hashed (hash : Hasher) : KeyRule.Lawful (RowKey.hashed hash) := nofun

theorem RowKey.lawful_firstInteger : KeyRule.Lawful RowKey.firstInteger := by
  intro relation columns f h
  simp only [RowKey.firstInteger] at h
  split at h
  · cases h
  · cases h
  · cases h
    rfl

/-- The first fault of two results is a fault of one of them. -/
theorem Fault.of_first {r boundary : Except Fault Unit} {f : Fault}
    (h : Fault.first r boundary = .error f) : r = .error f ∨ boundary = .error f := by
  cases r with
  | ok u => exact .inr h
  | error g => exact .inl h

/-- Only an argument that is missing keeps a statement from being bound. -/
theorem Statement.cls_of_resolve {s : Statement} {args : List Value} {f : Fault}
    (h : s.resolve args = .error f) : f.cls = .invalidInput := by
  unfold Statement.resolve at h
  generalize s.bindings = bindings at h
  generalize ([] : Columns) = columns at h
  induction bindings generalizing columns with
  | nil => cases h
  | cons b rest ih =>
      rw [List.foldlM_cons] at h
      rcases Fault.of_bind h with hfirst | ⟨next, -, hrest⟩
      · split at hfirst
        · cases hfirst
        · cases hfirst
          rfl
      · exact ih next hrest

/-- A store does not find the row of a statement only for its arguments. -/
theorem Store.cls_of_placeOf {s : Store} (hkeys : s.keys.Lawful) {statement : Statement}
    {args : List Value} {f : Fault} (h : s.placeOf statement args = .error f) :
    f.cls = .invalidInput := by
  rcases Fault.of_bind h with hresolve | ⟨columns, -, hnumber⟩
  · exact Statement.cls_of_resolve hresolve
  · rcases Fault.of_bind hnumber with hkey | ⟨key, -, hdone⟩
    · exact hkeys _ _ f hkey
    · cases hdone

/-- The template of an open transaction is one of the workload, and a call that has come to the
boundary does not report an error of the program. -/
structure Worker.Regular (w : Worker) (workload : Workload) : Prop where
  bound : ∀ t, w.current = some t → ∃ name, workload.find? name = some t.template
  result : ∀ call f, w.blocked = some (.atBoundary call (.error f)) → f.cls ≠ .internal

namespace Engine

variable {e e' e₁ : Engine} {w w' : Worker} {id : Nat} {workload : Workload} {name : String}
  {index : Nat} {args : List Value} {f : Fault}

/-- An engine runs a workload over lawful key rules, and its workers are regular. -/
structure Ruled (e : Engine) (workload : Workload) : Prop where
  runs : e.workload = workload
  keys : e.keys.Lawful
  storeKeys : e.store.keys.Lawful
  regular : ∀ id w, e.worker? id = some w → w.Regular workload

section Answers

/-- What is left of getting a statement ready fails only for the arguments. -/
theorem cls_of_bound {keys : KeyRule} (hkeys : keys.Lawful) {template : Transaction}
    {statement : Statement}
    (h : (do
      let columns ←
        if statement.bindings.isEmpty then pure none else some <$> statement.resolve args
      let needed := statement.validatedAny || (columns.isSome && statement.kind.isWrite)
      let key ← if needed then some <$> keys statement.relation (columns.getD []) else pure none
      return ({ template, index, statement, columns, key } : ReadyStatement)) = .error f) :
    f.cls = .invalidInput := by
  have hmap : ∀ {α : Type} {x : Except Fault α}, some <$> x = .error f → x = .error f := by
    intro α x hx
    cases x with
    | ok a => cases hx
    | error g => exact congrArg Except.error (Except.error.inj hx)
  have hkey : ∀ (columns : Option Columns) (needed : Bool),
      (do
        let key ← if needed then some <$> keys statement.relation (columns.getD []) else pure none
        return ({ template, index, statement, columns, key } : ReadyStatement)) = .error f →
      f.cls = .invalidInput := by
    intro columns needed h
    cases needed with
    | false => cases h
    | true =>
        rcases Fault.of_bind h with hnumber | ⟨key, -, hdone⟩
        · exact hkeys _ _ f (hmap hnumber)
        · cases hdone
  cases hempty : statement.bindings.isEmpty with
  | true =>
      simp only [hempty, if_true] at h
      exact hkey none _ h
  | false =>
      simp only [hempty, Bool.false_eq_true, if_false] at h
      rcases Fault.of_bind h with hcolumns | ⟨columns, -, hnumber⟩
      · exact Statement.cls_of_resolve (hmap hcolumns)
      · exact hkey columns _ hnumber

/-- A statement is refused for what it is called with, or because the open transaction is one of
another template. -/
theorem cls_of_ready (hkeys : e.keys.Lawful) (h : e.ready w name index args = .error f) :
    f.cls = .invalidInput ∨ f.cls = .invalidState := by
  cases htemplate : e.workload.find? name with
  | none =>
      simp only [ready, htemplate] at h
      cases h
      exact .inl rfl
  | some template =>
      cases hstatement : template.statements[index]? with
      | none =>
          simp only [ready, htemplate, hstatement] at h
          cases h
          exact .inl rfl
      | some statement =>
          cases hcurrent : w.current with
          | none =>
              simp only [ready, htemplate, hstatement, hcurrent] at h
              exact .inl (cls_of_bound hkeys h)
          | some t =>
              by_cases hid : t.template.id = template.id
              · simp only [ready, htemplate, hstatement, hcurrent, hid, ne_eq, not_true_eq_false,
                  if_false] at h
                exact .inl (cls_of_bound hkeys h)
              · simp only [ready, htemplate, hstatement, hcurrent, ne_eq, hid, not_false_eq_true,
                  if_true] at h
                cases h
                exact .inr rfl

theorem cls_of_keyIn (hkeys : e.keys.Lawful) {t : OpenTransaction} {q : ReadyStatement}
    (h : e.keyIn t q = .error f) : f.cls = .invalidInput := by
  simp only [keyIn] at h
  split at h
  · rename_i columns _ _
    split at h
    · cases hkey : e.keys q.statement.relation columns with
      | ok key =>
          rw [hkey] at h
          cases h
      | error g =>
          rw [hkey] at h
          cases h
          exact hkeys _ _ _ hkey
    · cases h
  · cases h

/-- No statement is answered with an error of the program. -/
theorem Executed.not_internal (hkeys : e.keys.Lawful) (hstore : e.store.keys.Lawful)
    (h : Executed e w name index args (.error f) e') : f.cls ≠ .internal := by
  cases h with
  | refused f hready => rcases cls_of_ready hkeys hready with hcls | hcls <;> simp [hcls]
  | keyless q f hready hkey =>
      obtain ⟨counters, next, hsame⟩ := begun_eq e w q.template
      rw [hsame] at hkey
      simp [cls_of_keyIn (e := { e with counters, nextTransaction := next }) hkeys hkey]
  | lost q key f hready hkey hexec =>
      obtain ⟨counters, next, hsame⟩ := begun_eq e w q.template
      rw [hsame] at hexec
      rcases Link.cls_of_execute hexec with hcls | hplace
      · simp [hcls]
      · simp [Store.cls_of_placeOf hstore hplace]

theorem connect_not_internal (h : (e.connect id [] none).1 = .error f) : f.cls ≠ .internal := by
  simp only [connect] at h
  split at h
  · rename_i g hregister
    cases h
    simp only [Barrier.register] at hregister
    split at hregister
    · cases hregister
      intro hinternal
      cases hinternal
    · split at hregister <;> cases hregister
  · split at h
    · rename_i g hlevel
      cases h
      simp [(Link.setLevel_eq_error hlevel).1]
    · cases h

theorem close_not_internal (h : (e.close id).1 = .error f) : f.cls ≠ .internal := by
  simp only [close, withWorker] at h
  split at h
  · rename_i w _
    split at h
    · cases h
    · simp only [Link.rollback] at h
      split at h
      · cases h
      · rename_i g hthrough
        cases h
        simp [Link.cls_of_through hthrough]
  · cases h
    intro hinternal
    cases hinternal

end Answers

section Ruled

theorem Ruled.congr (h : e.Ruled workload) (hworkload : e'.workload = e.workload)
    (hkeys : e'.keys = e.keys) (hstore : e'.store.keys = e.store.keys)
    (hworkers : e'.workers = e.workers) : e'.Ruled workload where
  runs := hworkload.trans h.runs
  keys := hkeys ▸ h.keys
  storeKeys := hstore ▸ h.storeKeys
  regular id w hw := by
    rw [worker?, hworkers] at hw
    exact h.regular id w hw

theorem Ruled.untouched (h : e.Ruled workload) (huntouched : e.Untouched e') : e'.Ruled workload :=
  h.congr huntouched.workload huntouched.keys huntouched.storeKeys huntouched.workers

theorem Ruled.put (h : e.Ruled workload) (hw : w.Regular workload) : (e.put w).Ruled workload where
  runs := h.runs
  keys := h.keys
  storeKeys := h.storeKeys
  regular id x hx := by
    rw [worker?_put] at hx
    split at hx
    · exact Option.some.inj hx ▸ hw
    · exact h.regular id x hx

/-- What is wrong at the boundary is no error of the program. -/
theorem Leaving.not_internal (h : Leaving e w (.error f) e') : f.cls ≠ .internal := by
  cases h with
  | missing f hleave => simp [Barrier.cls_of_leave hleave]
  | denied next b f _ hlevel => simp [(Link.setLevel_eq_error hlevel).1]

/-- A worker that leaves its boundary ends its call. -/
theorem Ruled.left (h : e.Ruled workload) (hw : w.Regular workload) {boundary : Except Fault Unit}
    (hleaving : Leaving e w boundary e') : e'.Ruled workload := by
  obtain ⟨barrier, levels, protocol, blocked, rfl, -⟩ := hleaving.crossed
  have hengine : Ruled { e with barrier, store.levels := levels } workload :=
    h.congr rfl rfl rfl rfl
  obtain rfl : blocked = none :=
    hleaving.free (x := { w with protocol, blocked }) (by rw [worker?_put, if_pos rfl])
  exact hengine.put (w := { w with protocol, blocked := none }) ⟨hw.bound, nofun⟩

/-- A transaction that begins is one of a template of the workload. -/
theorem Ruled.begin (h : e.Ruled workload) (hw : w.Regular workload) {q : ReadyStatement}
    (hready : e.ready w name index args = .ok q) :
    (e.begun w q.template).Ruled workload ∧ (e.beginner w q.template).Regular workload ∧
      ∃ name, workload.find? name = some (e.opened w q.template).1.template := by
  obtain ⟨hcurrent, hbegun, hbeginner⟩ | ⟨-, hopened, hbegun, hbeginner⟩ :=
    opened_eq e w q.template
  · rw [hbegun, hbeginner]
    exact ⟨h, hw, hw.bound _ hcurrent⟩
  · have htemplate : ∃ name, workload.find? name = some (e.opened w q.template).1.template := by
      rw [hopened, ← h.runs]
      exact ⟨name, (ready_inv hready).1⟩
    rw [hbegun, hbeginner]
    refine ⟨h.congr rfl rfl rfl rfl, ⟨?_, hw.result⟩, htemplate⟩
    intro t ht
    exact Option.some.inj ht ▸ htemplate

theorem Ruled.executed (h : e.Ruled workload) (hw : w.Regular workload)
    {answer : Except Fault Outcome} (hexecuted : Executed e w name index args answer e') :
    e'.Ruled workload := by
  cases hexecuted with
  | refused f _ => exact h
  | keyless q f hready _ =>
      obtain ⟨hbegun, hbeginner, -⟩ := h.begin hw hready
      exact hbegun.put hbeginner
  | lost q key f hready _ _ =>
      obtain ⟨hbegun, hbeginner, -⟩ := h.begin hw hready
      rw [abandon_eq]
      have hengine : ∀ counters, Ruled { e.begun w q.template with counters } workload :=
        fun _ => hbegun.congr rfl rfl rfl rfl
      exact (hengine _).put ⟨nofun, hbeginner.result⟩
  | answered q key outcome link hready _ _ =>
      obtain ⟨hbegun, hbeginner, hopened⟩ := h.begin hw hready
      refine hbegun.put ⟨?_, hbeginner.result⟩
      intro t ht
      rw [← Option.some.inj ht]
      cases key with
      | none => exact hopened
      | some k => exact hopened

/-- Every action that ends no transaction leaves the workers regular. -/
theorem Ruled.acts (h : e.Ruled workload) {a : EngineAction} {x : List EngineEvent × Engine}
    (hacts : e.Acts a x) : x.2.Ruled workload := by
  cases hacts with
  | aside a e' events huntouched _ => exact h.untouched huntouched
  | joined id w e₁ huntouched _ _ hcurrent hblocked =>
      refine (h.untouched huntouched).put ⟨?_, ?_⟩
      · rw [hcurrent]
        exact nofun
      · rw [hblocked]
        exact nofun
  | linked id calls w link hw => exact h.put ⟨(h.regular id w hw).bound, (h.regular id w hw).result⟩
  | executed id name index args w hw answer e' hexecuted =>
      exact h.executed (h.regular id w hw) hexecuted
  | closed id w hw _ =>
      exact ⟨h.runs, h.keys, h.storeKeys, fun i x hx => h.regular i x (worker?_of_without hx)⟩
  | left id w hw call result boundary _ e₁ e' huntouched hleaving =>
      exact (h.untouched huntouched).left (h.regular id w hw) hleaving

/-- No call that ends by such an action reports an error of the program. -/
theorem Ruled.acts_faults (h : e.Ruled workload) {a : EngineAction}
    {x : List EngineEvent × Engine} (hacts : e.Acts a x) {call : EndCall} {i : Nat}
    (hmem : .ended call i (.error f) ∈ x.1) : f.cls ≠ .internal := by
  cases hacts with
  | aside a e' events _ hsilent => exact absurd hmem (hsilent call i (.error f))
  | left id w hw own result boundary hblocked e₁ e' _ hleaving =>
      obtain ⟨-, -, hfirst⟩ := EngineEvent.ended.inj (List.mem_singleton.1 hmem)
      rcases Fault.of_first hfirst.symm with rfl | rfl
      · exact (h.regular id w hw).result own f hblocked
      · exact hleaving.not_internal
  | joined | linked | executed | closed => cases hmem

/-- A worker whose transaction has ended comes to its boundary. -/
theorem Ruled.enterBoundary (h : e.Ruled workload) (hcurrent : w.current = none) (call : EndCall)
    {result : Except Fault Unit} (hresult : ∀ f, result = .error f → f.cls ≠ .internal) :
    (e.enterBoundary w call result).2.Ruled workload ∧
      ∀ call' i f, .ended call' i (.error f) ∈ (e.enterBoundary w call result).1 →
        f.cls ≠ .internal := by
  have hbound : ∀ t, w.current = some t → ∃ name, workload.find? name = some t.template := by
    rw [hcurrent]
    exact nofun
  rcases e.enterBoundary_inv w call result with ⟨g, hcls, henter⟩ | ⟨barrier, -, henter⟩
  · rw [henter]
    refine ⟨h.put ⟨hbound, nofun⟩, ?_⟩
    intro call' i f hmem
    obtain ⟨-, -, hfirst⟩ := EngineEvent.ended.inj (List.mem_singleton.1 hmem)
    rcases Fault.of_first hfirst.symm with hown | hboundary
    · exact hresult f hown
    · obtain rfl := Except.error.inj hboundary
      simp [hcls]
  · rw [henter]
    have hengine : Ruled { e with barrier } workload := h.congr rfl rfl rfl rfl
    refine ⟨hengine.put ⟨hbound, ?_⟩, fun _ _ _ hmem => absurd hmem List.not_mem_nil⟩
    intro call' f hblocked
    obtain ⟨-, hfault⟩ := Blocked.atBoundary.inj (Option.some.inj hblocked)
    exact hresult f hfault

end Ruled

end Engine

/-- The fault that a call ends with. -/
def EngineEvent.fault? : EngineEvent → Option Fault
  | .ended _ _ result => Fault.of? result
  | .switched _ => none

namespace Overlap

open Engine

variable {o : Overlap} {w : Worker} {c : CommitCall} {t : OpenTransaction} {workload : Workload}
  {f : Fault}

/-- The fault of a call that is answered at once. -/
def answer? (o : Overlap) : EngineAction → Option Fault
  | .connect id => Fault.of? (o.engine.connect id [] none).1
  | .execute id name index args => Fault.of? (o.engine.execute id name index args).1
  | .close id => Fault.of? (o.engine.close id).1
  | _ => none

/-- The faults that calls end with in a move. -/
def faultsOf (o : Overlap) (m : OverlapMove) : List Fault :=
  (match m with
    | .action a => if o.occupied a then [] else (o.answer? a).toList
    | .proceed _ | .leave _ => []) ++ (o.take m).1.filterMap EngineEvent.fault?

/-- The faults that calls end with in some moves. -/
def faults (o : Overlap) : List OverlapMove → List Fault
  | [] => []
  | m :: rest => o.faultsOf m ++ (o.take m).2.faults rest

section Faults

theorem eq_error_of_of? {α : Type} {r : Except Fault α} (h : Fault.of? r = some f) :
    r = .error f := by
  cases r with
  | ok a => cases h
  | error g => exact congrArg Except.error (Option.some.inj h)

/-- A call that is answered at once is not answered with an error of the program. -/
theorem answer_not_internal (hkeys : o.engine.keys.Lawful) (hstore : o.engine.store.keys.Lawful)
    {a : EngineAction} (h : o.answer? a = some f) : f.cls ≠ .internal := by
  cases a with
  | connect id => exact connect_not_internal (eq_error_of_of? h)
  | close id => exact close_not_internal (eq_error_of_of? h)
  | execute id name index args =>
      have hanswer := eq_error_of_of? h
      cases hw : o.engine.worker? id with
      | none =>
          rw [execute_of_none hw] at hanswer
          obtain rfl := Except.error.inj hanswer
          exact nofun
      | some w =>
          have hexecuted := execute_inv hw name index args
          rw [hanswer] at hexecuted
          exact hexecuted.not_internal hkeys hstore
  | finish | request | seed | outage | fail | beginRequest | advance | resume => cases h

/-- The engine after a move is as it should be, and no call has reported an error of the
program. -/
def Clean (workload : Workload) (x : List EngineEvent × Overlap) : Prop :=
  x.2.engine.Ruled workload ∧ ∀ call i f, .ended call i (.error f) ∈ x.1 → f.cls ≠ .internal

theorem clean_silent {o' : Overlap} (h : o'.engine.Ruled workload) : Clean workload ([], o') :=
  ⟨h, fun _ _ _ hmem => absurd hmem List.not_mem_nil⟩

theorem clean_conclude (h : o.engine.Ruled workload) (counters : Counters) (committed : Bool)
    {result : Except Fault Unit} (hresult : ∀ f, result = .error f → f.cls ≠ .internal) :
    Clean workload (o.conclude w { o.engine with counters } committed result) := by
  have hengine : ∀ counters, Ruled { o.engine with counters } workload :=
    fun _ => h.congr rfl rfl rfl rfl
  cases committed with
  | true =>
      exact (hengine _).enterBoundary (w := { w with current := none }) rfl .commit hresult
  | false =>
      exact (hengine _).enterBoundary (w := { w with link := w.link.rollback.2, current := none })
        rfl .commit hresult

theorem clean_advance (h : o.Proper) (hruled : o.engine.Ruled workload)
    (hw : o.engine.worker? w.id = some w) (hcall : o.calls w.id = some c) :
    Clean workload (o.advance w c t) := by
  have hadvances := advance_inv (h.calls w.id c hcall) h.fit w t
  have hlocks : ∀ locks, Ruled { o.engine with locks } workload :=
    fun _ => hruled.congr rfl rfl rfl rfl
  generalize o.advance w c t = x at hadvances
  cases hadvances with
  | committed => exact clean_conclude hruled _ true nofun
  | failed f hcls =>
      refine clean_conclude hruled _ false fun g hg => ?_
      obtain rfl := Except.error.inj hg
      simp [hcls]
  | turnedAway found =>
      refine clean_conclude hruled _ false fun g hg => ?_
      obtain rfl := Except.error.inj hg
      exact nofun
  | madeKnown row rest locks => exact clean_silent (hlocks locks)
  | refused f => exact clean_silent hruled
  | stored link store _ hcommit =>
      obtain ⟨-, -, rfl, rfl⟩ := Link.commit_eq_ok.1 hcommit
      have hregular := hruled.regular w.id w hw
      have hkeys : (o.engine.store.writeAll w.link.connection.writes).keys =
          o.engine.store.keys := by rw [Store.writeAll_eq]
      have hengine : Ruled { o.engine with store :=
          { o.engine.store.writeAll w.link.connection.writes with
            commits := o.engine.store.commits + 1 } } workload :=
        hruled.congr rfl rfl hkeys rfl
      exact clean_silent (hengine.put (w := { w with link.connection.writes := [] })
        ⟨hregular.bound, hregular.result⟩)
  | visits => exact clean_silent (hlocks _)

/-- No move makes a worker irregular, and no call that ends in it reports an error of the
program. -/
theorem clean_take (h : o.Proper) (hmanned : o.Manned) (hruled : o.engine.Ruled workload)
    (m : OverlapMove) : Clean workload (o.take m) := by
  have hmoves := moves_take hmanned.seated m
  generalize o.take m = x at hmoves
  cases hmoves with
  | rests => exact clean_silent hruled
  | acts a x hacts _ _ _ =>
      exact ⟨hruled.acts hacts, fun _ _ _ hmem => hruled.acts_faults hacts hmem⟩
  | absent id call _ =>
      refine ⟨hruled, fun call' i f hmem => ?_⟩
      obtain ⟨-, -, hfault⟩ := EngineEvent.ended.inj (List.mem_singleton.1 hmem)
      obtain rfl := Except.error.inj hfault
      exact nofun
  | begins w t hw _ _ _ => exact clean_silent hruled
  | rollsBack w t hw _ _ _ x hx =>
      have hengine : Ruled { o.engine with counters := o.engine.counters.finish false } workload :=
        hruled.congr rfl rfl rfl rfl
      rw [← hx, Link.rollback_eq (h.steady.tidy w.id w hw).rollback]
      exact hengine.enterBoundary (w := { w with link.connection.writes := [], current := none })
        rfl .rollback nofun
  | passes w call _ ht _ _ x hx =>
      rw [← hx]
      exact hruled.enterBoundary ht call nofun
  | proceeds w t c hw _ hcall => exact clean_advance h hruled hw hcall

theorem faultsOf_not_internal (h : o.Proper) (hmanned : o.Manned)
    (hruled : o.engine.Ruled workload) {m : OverlapMove} (hf : f ∈ o.faultsOf m) :
    f.cls ≠ .internal := by
  rcases List.mem_append.1 hf with hanswer | hended
  · cases m with
    | action a =>
        simp only at hanswer
        split at hanswer
        · cases hanswer
        · exact answer_not_internal hruled.keys hruled.storeKeys (Option.mem_toList.1 hanswer)
    | proceed | leave => cases hanswer
  · obtain ⟨event, hmem, hfault⟩ := List.mem_filterMap.1 hended
    cases event with
    | ended call i result =>
        rw [eq_error_of_of? hfault] at hmem
        exact (clean_take h hmanned hruled m).2 call i f hmem
    | switched report => cases hfault

theorem ruled_run (h : o.Proper) (hmanned : o.Manned) (hruled : o.engine.Ruled workload)
    (moves : List OverlapMove) : (o.run moves).engine.Ruled workload ∧
      ∀ f ∈ o.faults moves, f.cls ≠ .internal := by
  induction moves generalizing o with
  | nil => exact ⟨hruled, fun _ hf => absurd hf List.not_mem_nil⟩
  | cons m rest ih =>
      obtain ⟨hafter, hlater⟩ :=
        ih (h.take hmanned m) (hmanned.take m) (clean_take h hmanned hruled m).1
      refine ⟨hafter, fun f hf => ?_⟩
      rcases List.mem_append.1 hf with hnow | hrest
      · exact faultsOf_not_internal h hmanned hruled hnow
      · exact hlater f hrest

end Faults

end Overlap

/-- A template of an analysed workload stands at its number. -/
theorem Registry.template_of_analyze {calls : List RegistryCall} {workload : Workload}
    (h : (run calls).analyze = .ok workload) (name : String) (t : Transaction)
    (ht : workload.find? name = some t) : workload.templates[t.id]? = some t := by
  have hsound := sound_run calls
  rcases hsound.analyze_eq with ⟨u, -, -, herror⟩ | ⟨-, w, hw, htemplates⟩
  · cases herror.symm.trans h
  · obtain rfl := Except.ok.inj (hw.symm.trans h)
    obtain ⟨k, hk⟩ := List.mem_iff_getElem?.1 (List.mem_of_find?_eq_some ht)
    have hmarked := hk
    rw [htemplates, withMarks, List.getElem?_mapIdx] at hmarked
    obtain ⟨u, hu, rfl⟩ := Option.map_eq_some_iff.1 hmarked
    rw [show (u.withMarks _).id = k from hsound.numbered k u hu]
    exact hk

namespace Overlap

variable {calls : List RegistryCall} {workload : Workload} {config : EngineConfig} {keys : KeyRule}
  {e : Engine} {store : Store} {moves : List OverlapMove} {o : Overlap}

/-- Any number of workers run the templates of an analysed workload over any store, and their calls
overlap in any way. No call ends with an error of the program. Every template that is found by its
name, and that of every open transaction, stands at its number. -/
theorem nothing_internal (hanalyze : (Registry.run calls).analyze = .ok workload)
    (hcreate : Engine.create workload config keys = .ok e) (hkeys : keys.Lawful)
    (hstore : store.keys.Lawful) (hrun : (start { e with store }).run moves = o) :
    (∀ f ∈ (start { e with store }).faults moves, f.cls ≠ .internal) ∧
      (∀ name t, o.engine.workload.find? name = some t →
        o.engine.workload.templates[t.id]? = some t) ∧
      ∀ id w t, o.engine.worker? id = some w → w.current = some t →
        o.engine.workload.templates[t.template.id]? = some t.template := by
  have hruled : Engine.Ruled { e with store } workload := by
    obtain ⟨protocol, locks, -, -, rfl⟩ := Engine.create_eq_ok hcreate
    exact ⟨rfl, hkeys, hstore, nofun⟩
  have hplaces := Registry.template_of_analyze hanalyze
  obtain ⟨hafter, hfaults⟩ :=
    ruled_run (proper_start hcreate store) (manned_start hcreate store) hruled moves
  rw [hrun] at hafter
  rw [hafter.runs]
  refine ⟨hfaults, hplaces, ?_⟩
  intro id w t hw ht
  obtain ⟨name, hname⟩ := (hafter.regular id w hw).bound t ht
  exact hplaces name t.template hname

/-- The row that stands for all of a relation. -/
def wholeY : RowKey := RowKey.ofRelation WordHash.hasher "y"

/-- The transactions of two workers each read the row that the other one writes, and their commits
take turns. -/
def entangled : List OverlapMove :=
  [.action (.seed ("y", wholeY) .null), .action (.connect 1), .action (.connect 2),
    .action (.execute 1 "a" 0 []), .action (.execute 1 "a" 1 []), .action (.execute 2 "b" 0 []),
    .action (.execute 2 "b" 1 []), .action (.finish 1 .commit), .action (.finish 2 .commit)] ++
    (List.replicate 21 [OverlapMove.proceed 1, .proceed 2]).flatten ++ [.leave 1, .leave 2]

/-- The second worker waits for the first one and is then turned away for the version that it has
read. -/
theorem entangled_nothing_internal :
    ∃ workload e, (Registry.run Registry.crossed).analyze = .ok workload ∧
      Engine.create workload (.ofProtocol .snapshot) RowKey.standard = .ok e ∧
      (start e).faults entangled = [.conflicts [.stale "y" wholeY 1 2]] ∧
      ∀ f ∈ (start e).faults entangled, f.cls ≠ .internal := by
  obtain ⟨workload, hanalyze, e, hcreate, hfaults⟩ :
      ∃ workload, (Registry.run Registry.crossed).analyze = .ok workload ∧
        ∃ e, Engine.create workload (.ofProtocol .snapshot) RowKey.standard = .ok e ∧
          (start e).faults entangled = [.conflicts [.stale "y" wholeY 1 2]] :=
    ⟨_, rfl, Engine.exists_create _ _ _ _ (by decide +kernel)⟩
  have hstore : e.store.keys.Lawful := by
    obtain ⟨protocol, locks, -, -, rfl⟩ := Engine.create_eq_ok hcreate
    exact RowKey.lawful_hashed _
  obtain ⟨hinternal, -⟩ :=
    nothing_internal hanalyze hcreate (RowKey.lawful_hashed _) hstore
      (show (start { e with store := e.store }).run entangled = _ from rfl)
  exact ⟨workload, e, hanalyze, hcreate, hfaults, hinternal⟩

end Overlap

end LiveIsolation
