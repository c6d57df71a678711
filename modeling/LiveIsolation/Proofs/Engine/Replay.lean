import LiveIsolation.Proofs.Engine.Log
import Mathlib.Data.List.Forall2

/-!
# Transactions one after another

A store can be asked to run whole transactions, one after another and each over a connection of
its own. A log tells when a transaction would have been answered in this way just as it was: the
store must hold the rows that the transaction saw, as far as it had not written them itself.
Only a read that found no row may find one.
-/

namespace LiveIsolation

/-- A statement with its arguments. -/
structure StatementCall where
  statement : Statement
  args : List Value

/-- A statement that was answered. -/
structure Answer where
  call : StatementCall
  outcome : Outcome

namespace Answer

/-- A statement is answered in the same way again. A read that found no row the first time is
not compared. -/
def AgreesWith (a : Answer) (again : Outcome) : Prop :=
  again = a.outcome ∨ (a.call.statement.kind.isWrite = false ∧ a.outcome = {})

end Answer

/-- Runs statements over a connection. -/
def Connection.executeAll (c : Connection) (s : Store) :
    List StatementCall → Except Fault (List Outcome × Connection)
  | [] => .ok ([], c)
  | call :: rest => do
    let (outcome, c) ← c.execute s call.statement call.args
    let (outcomes, c) ← c.executeAll s rest
    return (outcome :: outcomes, c)

namespace Store

/-- Runs a whole transaction over a connection of its own, and commits it. -/
def serve (s : Store) (calls : List StatementCall) : Except Fault (List Outcome × Store) := do
  let (c, s) := s.connect
  let (outcomes, c) ← c.executeAll s calls
  let (_, s) ← c.commit s
  return (outcomes, s)

/-- Runs whole transactions one after another. -/
def replay (s : Store) : List (List StatementCall) → Except Fault (List (List Outcome) × Store)
  | [] => .ok ([], s)
  | calls :: rest => do
    let (outcomes, s) ← s.serve calls
    let (later, s) ← s.replay rest
    return (outcomes :: later, s)

/-- One more transaction is run at the end. -/
theorem replay_concat {s t u : Store} {earlier : List (List StatementCall)}
    {calls : List StatementCall} {outcomes : List (List Outcome)} {last : List Outcome}
    (h : s.replay earlier = .ok (outcomes, t)) (hlast : t.serve calls = .ok (last, u)) :
    s.replay (earlier ++ [calls]) = .ok (outcomes ++ [last], u) := by
  induction earlier generalizing s outcomes with
  | nil =>
      cases h
      simp only [List.nil_append, replay, hlast, bind, Except.bind, pure, Except.pure]
  | cons first rest ih =>
      simp only [replay, bind, Except.bind, pure, Except.pure] at h
      cases hfirst : s.serve first with
      | error f =>
          rw [hfirst] at h
          cases h
      | ok done =>
          rw [hfirst] at h
          dsimp only at h
          cases hrest : done.2.replay rest with
          | error f =>
              rw [hrest] at h
              cases h
          | ok later =>
              rw [hrest] at h
              cases h
              simp only [List.cons_append, replay, hfirst, ih hrest, bind, Except.bind, pure,
                Except.pure]

end Store

/-- The statement of a visit with its arguments. -/
def Visit.call (v : Visit) : StatementCall := ⟨v.statement, v.args⟩

namespace Log

variable {log : Log} {v : Visit} {now : Place → Option Row} {p : Place}

/-- The statements of a transaction with their answers, as the client knows them. -/
def answers (log : Log) : List Answer := log.told.map fun x => ⟨x.1.call, x.2⟩

theorem answers_concat (log : Log) (v : Visit) :
    answers (log ++ [v]) = log.answers ++ [⟨v.call, log.outcome v⟩] := by
  rw [answers, told_concat, List.map_append]
  rfl

theorem map_call_answers (log : Log) : log.answers.map Answer.call = log.map Visit.call := by
  induction log using List.reverseRecOn with
  | nil => rfl
  | append_singleton log v ih =>
      rw [answers_concat, List.map_append, ih, List.map_append]
      rfl

/-- A log as it would be if the store had held other rows. -/
def rebase (now : Place → Option Row) (log : Log) : Log :=
  log.map fun v => { v with base := now v.place }

theorem rebase_concat (now : Place → Option Row) (log : Log) (v : Visit) :
    rebase now (log ++ [v]) = rebase now log ++ [{ v with base := now v.place }] := by
  rw [rebase, List.map_append]
  rfl

/-- The rows that a transaction saw before it wrote them are the rows that the store holds now,
except where a read found no row. -/
def Stands (now : Place → Option Row) (log : Log) : Prop :=
  ∀ v, log.Fresh v → v.base = now v.place ∨ (v.isWrite = false ∧ v.base = none)

theorem Stands.of_concat (h : Stands now (log ++ [v])) : Stands now log :=
  fun u hu => h u (hu.concat v)

/-- A first write saw the row that the store holds now. -/
theorem Stands.nextVersion (h : Stands now (log ++ [v])) (hw : v.isWrite = true)
    (hown : log.own? v.place = none) :
    Visit.nextVersion { v with base := now v.place } = v.nextVersion := by
  rcases h v (fresh_last hown) with hbase | ⟨hread, -⟩
  · simp only [Visit.nextVersion]
    rw [hbase]
  · rw [hw] at hread
    cases hread

/-- The transaction's own rows would be the same. -/
theorem Stands.own?_rebase (h : Stands now log) (p : Place) :
    own? (rebase now log) p = own? log p := by
  induction log using List.reverseRecOn with
  | nil => rfl
  | append_singleton log v ih =>
      have ih := ih h.of_concat
      rw [rebase_concat, own?_concat, own?_concat, ih]
      by_cases hv : (v.isWrite && v.place == p) = true
      · have hv' := hv
        rw [Bool.and_eq_true, beq_iff_eq] at hv'
        obtain ⟨hw, rfl⟩ := hv'
        cases hown : own? log v.place with
        | some own => rfl
        | none =>
            have hnext := h.nextVersion hw hown
            rw [if_pos hv]
            simp only [Option.elim_none, hnext]
            exact if_pos hv
      · rw [if_neg hv]
        exact if_neg hv

/-- The statement after a log would be answered in the same way. -/
theorem Stands.outcome (h : Stands now (log ++ [v])) :
    Answer.AgreesWith ⟨v.call, log.outcome v⟩
      (outcome (rebase now log) { v with base := now v.place }) := by
  simp only [Answer.AgreesWith]
  have hown := h.of_concat.own?_rebase v.place
  cases hw : v.isWrite with
  | true =>
      left
      simp only [Log.outcome]
      rw [if_pos hw, if_pos (show Visit.isWrite { v with base := now v.place } = true from hw)]
      change (⟨[], some ((own? (rebase now log) v.place).elim _ _)⟩ : Outcome) = _
      rw [hown]
      cases hfirst : log.own? v.place with
      | some own => rfl
      | none => simp only [Option.elim_none, h.nextVersion hw hfirst]
  | false =>
      have hread : ∀ earlier u, Visit.isWrite u = false →
          Log.outcome earlier u = .ofRow ((own? earlier u.place).or u.base) := by
        intro earlier u hu
        simp only [Log.outcome]
        rw [hu, if_neg Bool.false_ne_true]
      rw [hread log v hw, hread (rebase now log) { v with base := now v.place } hw]
      change Outcome.ofRow ((own? (rebase now log) v.place).or (now v.place)) = _ ∨ _
      rw [hown]
      cases hfirst : own? log v.place with
      | some own => exact .inl rfl
      | none =>
          rcases h v (fresh_last hfirst) with hbase | ⟨-, hbase⟩
          · rw [hbase]
            exact .inl rfl
          · rw [hbase]
            exact .inr ⟨hw, rfl⟩

/-- All statements of the log would be answered in the same way. -/
theorem Stands.told (h : Stands now log) :
    List.Forall₂ Answer.AgreesWith log.answers ((rebase now log).told.map (·.2)) := by
  induction log using List.reverseRecOn with
  | nil => exact .nil
  | append_singleton log v ih =>
      rw [answers_concat, rebase_concat, told_concat, List.map_append]
      exact List.rel_append (ih h.of_concat) (.cons h.outcome .nil)

end Log

/-- The statements of a log are answered as the log says over a connection that has run the
earlier ones. -/
theorem Connection.executeAll_log {s : Store} (hs : s.unavailable = false)
    (hkeys : s.keys.Total) {log : Log} (hplaced : ∀ v ∈ log, v.Placed s.keys)
    (hbase : ∀ v ∈ log, v.base = s.row? v.place) {c : Connection} (earlier : Log)
    (hsorted : Ordered.Sorted placeLt c.writes) (hown : ∀ p, c.pending? p = earlier.own? p) :
    ∃ d, c.executeAll s (log.map Visit.call) = .ok ((Log.toldAfter earlier log).map (·.2), d) ∧
      Ordered.Sorted placeLt d.writes ∧ ∀ p, d.pending? p = Log.own? (earlier ++ log) p := by
  induction log generalizing c earlier with
  | nil => exact ⟨c, rfl, hsorted, by simpa using hown⟩
  | cons v rest ih =>
      have hplace := (hplaced v List.mem_cons_self).placeOf_eq hkeys
      obtain ⟨done, hexec⟩ : ∃ done, c.execute s v.statement v.args = .ok done :=
        ⟨_, execute_eq_ok.2 ⟨hs, v.place, hplace, Prod.mk.eta⟩⟩
      obtain ⟨outcome, d⟩ := done
      obtain ⟨rfl, hsorted', hown'⟩ :=
        execute_log hsorted hown (hbase v List.mem_cons_self) hplace hexec
      obtain ⟨d', hall, hsorted'', hown''⟩ :=
        ih (fun u hu => hplaced u (List.mem_cons_of_mem v hu))
          (fun u hu => hbase u (List.mem_cons_of_mem v hu)) (earlier ++ [v]) hsorted' hown'
      refine ⟨d', ?_, hsorted'', ?_⟩
      · simp only [List.map_cons, executeAll, Visit.call, hexec, bind, Except.bind, pure,
          Except.pure]
        rw [hall]
        rfl
      · intro p
        rw [hown'' p, List.append_assoc]
        rfl

/-- A transaction whose log stands is answered in the same way again, and writes the same
rows. -/
theorem Store.serve_log {s : Store} (hs : s.unavailable = false)
    (hkeys : s.keys.Total) {log : Log} (hplaced : ∀ v ∈ log, v.Placed s.keys)
    (h : log.Stands s.row?) :
    ∃ outcomes t, s.serve (log.answers.map Answer.call) = .ok (outcomes, t) ∧
      List.Forall₂ Answer.AgreesWith log.answers outcomes ∧ t.unavailable = false ∧
      t.keys = s.keys ∧ ∀ p, t.row? p =
        match log.own? p with
        | some row => some ⟨row.value, ((s.row? p).getD {}).version + 1⟩
        | none => s.row? p := by
  have hcalls : log.answers.map Answer.call = (Log.rebase s.row? log).map Visit.call := by
    rw [Log.map_call_answers, Log.rebase, List.map_map]
    rfl
  have hplaced' : ∀ v ∈ Log.rebase s.row? log, v.Placed s.keys := by
    intro v hv
    obtain ⟨u, hu, rfl⟩ := List.mem_map.1 hv
    exact hplaced u hu
  have hbase : ∀ v ∈ Log.rebase s.row? log, v.base = s.connect.2.row? v.place := by
    intro v hv
    obtain ⟨u, hu, rfl⟩ := List.mem_map.1 hv
    rfl
  have hsorted₀ : Ordered.Sorted placeLt s.connect.1.writes := .nil
  obtain ⟨d, hall, hsorted, hown⟩ := Connection.executeAll_log (s := s.connect.2) hs hkeys hplaced'
    hbase [] hsorted₀ fun _ => rfl
  have hcommit : d.commit s.connect.2 = .ok (_, _) := Connection.commit_eq_ok.2 ⟨hs, rfl, rfl⟩
  refine ⟨_, { s.connect.2.writeAll d.writes with commits := s.connect.2.commits + 1 }, ?_, h.told,
    ?_, ?_, ?_⟩
  · rw [hcalls]
    simp only [serve, hall, hcommit, bind, Except.bind, pure, Except.pure]
    rfl
  · change (s.connect.2.writeAll d.writes).unavailable = false
    rw [writeAll_eq]
    exact hs
  · change (s.connect.2.writeAll d.writes).keys = s.keys
    rw [writeAll_eq]
    rfl
  · intro p
    have hpending : d.writes.lookup p = log.own? p := by
      rw [← h.own?_rebase p]
      exact hown p
    change (s.connect.2.writeAll d.writes).row? p = _
    rw [row?_writeAll hsorted.nodup_keys, hpending]
    rfl

end LiveIsolation
