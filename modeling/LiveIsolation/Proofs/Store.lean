import LiveIsolation.Proofs.Ordered
import LiveIsolation.Store.Link

/-!
# What statements and commits do at a store

A statement reads the store at its own row only, and a commit gives every row that the
connection has written its value and the next version. Calls that do not get through change
nothing.
-/

namespace LiveIsolation

/-- What is done in steps fails in the first of them or in a later one. -/
theorem Fault.of_bind {α β : Type} {x : Except Fault α} {g : α → Except Fault β} {f : Fault}
    (h : x >>= g = .error f) : x = .error f ∨ ∃ a, x = .ok a ∧ g a = .error f := by
  cases x with
  | error e => exact .inl (congrArg Except.error (Except.error.inj h))
  | ok a => exact .inr ⟨a, rfl, h⟩

namespace Store

variable {s t : Store} {p : Place}

theorem available_eq_ok : s.available = .ok () ↔ s.unavailable = false := by
  simp only [available]
  cases s.unavailable <;> simp

theorem row?_write (s : Store) (p q : Place) (value : Value) :
    (s.write p value).row? q =
      if q = p then some ⟨value, ((s.row? p).getD {}).version + 1⟩ else s.row? q :=
  row?_put s p q _

/-- Where every row has a number, a statement finds its row if its arguments can be bound. -/
theorem placeOf_eq (hkeys : s.keys.Total) {statement : Statement} {args : List Value}
    {columns : Columns} (h : statement.resolve args = .ok columns) :
    s.placeOf statement args =
      .ok (statement.relation, s.keys.number statement.relation columns) := by
  simp only [placeOf]
  rw [h]
  simp only [bind, Except.bind, hkeys.eq_number]
  rfl

/-- Commits a list of rows one after another. -/
def writeAll (s : Store) (writes : List (Place × Row)) : Store :=
  writes.foldl (fun (s : Store) w => s.write w.1 w.2.value) s

/-- Nothing but the rows changes. -/
theorem writeAll_eq (s : Store) (writes : List (Place × Row)) :
    s.writeAll writes = { s with rows := (s.writeAll writes).rows } := by
  induction writes generalizing s with
  | nil => rfl
  | cons w rest ih => exact ih (s.write w.1 w.2.value)

/-- What is written does not depend on whether the store is available. -/
theorem writeAll_unavailable (s : Store) (unavailable : Bool) (writes : List (Place × Row)) :
    Store.writeAll { s with unavailable } writes = { s.writeAll writes with unavailable } := by
  induction writes generalizing s with
  | nil => rfl
  | cons w rest ih => exact ih (s.write w.1 w.2.value)

/-- Each row of the list has its value and the next version, and the other rows stay. -/
theorem row?_writeAll {writes : List (Place × Row)} (h : (writes.map Prod.fst).Nodup)
    (s : Store) (p : Place) :
    (s.writeAll writes).row? p =
      match writes.lookup p with
      | some row => some ⟨row.value, ((s.row? p).getD {}).version + 1⟩
      | none => s.row? p := by
  induction writes generalizing s with
  | nil => rfl
  | cons w rest ih =>
      obtain ⟨q, row⟩ := w
      obtain ⟨hq, hrest⟩ := List.nodup_cons.1 h
      have hstep : s.writeAll ((q, row) :: rest) = (s.write q row.value).writeAll rest := rfl
      rw [hstep, ih hrest, row?_write]
      by_cases hp : p = q
      · subst hp
        have hnone : rest.lookup p = none := by
          rw [List.lookup_eq_none_iff]
          intro x hx
          rw [bne_iff_ne]
          rintro rfl
          have hmem : x.1 ∈ rest.map Prod.fst := List.mem_map_of_mem hx
          exact hq hmem
        simp [hnone]
      · have hb : (p == q) = false := by simpa using hp
        simp [List.lookup_cons, hb, hp]

/-- A row that was there is still the same, or has a later version. -/
def Precedes (old now : Option Row) : Prop :=
  ∀ r, old = some r → ∃ r', now = some r' ∧ (r = r' ∨ r.version < r'.version)

theorem Precedes.refl (row : Option Row) : Precedes row row := fun r h => ⟨r, h, .inl rfl⟩

theorem Precedes.trans {a b c : Option Row} (h : Precedes a b) (h' : Precedes b c) :
    Precedes a c := by
  intro r hr
  obtain ⟨r', hr', hle⟩ := h r hr
  obtain ⟨r'', hr'', hle'⟩ := h' r' hr'
  refine ⟨r'', hr'', ?_⟩
  rcases hle with rfl | hlt
  · exact hle'
  · rcases hle' with rfl | hlt'
    · exact .inr hlt
    · exact .inr (Nat.lt_trans hlt hlt')

/-- A row that was there has not lost versions. -/
theorem Precedes.version_le {old now : Option Row} (h : Precedes old now) :
    (old.getD {}).version ≤ (now.getD {}).version := by
  cases old with
  | none => exact Nat.zero_le _
  | some r =>
      obtain ⟨r', rfl, rfl | hlt⟩ := h r rfl
      · exact Nat.le_refl _
      · exact Nat.le_of_lt hlt

theorem precedes_write (s : Store) (p q : Place) (value : Value) :
    Precedes (s.row? q) ((s.write p value).row? q) := by
  rw [row?_write]
  split
  · rename_i hq
    intro r hr
    refine ⟨_, rfl, .inr ?_⟩
    rw [← hq, hr]
    exact Nat.lt_succ_self r.version
  · exact .refl _

theorem precedes_writeAll (s : Store) (writes : List (Place × Row)) (q : Place) :
    Precedes (s.row? q) ((s.writeAll writes).row? q) := by
  induction writes generalizing s with
  | nil => exact .refl _
  | cons w rest ih => exact (s.precedes_write w.1 q w.2.value).trans (ih (s.write w.1 w.2.value))

/-- Every row of the store has been committed at least once. -/
def Counted (s : Store) : Prop := ∀ p row, s.row? p = some row → 0 < row.version

theorem Counted.write (h : s.Counted) (p : Place) (value : Value) :
    (s.write p value).Counted := by
  intro q row hrow
  rw [row?_write] at hrow
  split at hrow
  · rw [← Option.some.inj hrow]
    exact Nat.succ_pos _
  · exact h q row hrow

theorem Counted.writeAll (h : s.Counted) (writes : List (Place × Row)) :
    (s.writeAll writes).Counted := by
  induction writes generalizing s with
  | nil => exact h
  | cons w rest ih => exact ih (h.write w.1 w.2.value)

end Store

/-- The answer to a read that has found a row or not. -/
def Outcome.ofRow : Option Row → Outcome
  | some row => ⟨[[row.value]], some row.version⟩
  | none => {}

namespace Connection

variable {c d : Connection} {s t : Store} {statement : Statement} {args : List Value}
  {outcome : Outcome} {p : Place}

/-- A statement is answered at its row by an available store. -/
theorem execute_eq_ok :
    c.execute s statement args = .ok (outcome, d) ↔
      s.unavailable = false ∧ ∃ p, s.placeOf statement args = .ok p ∧
        (outcome, d) =
          if statement.kind.isWrite then c.write s p (statement.writtenValue args)
          else (c.read s p, c) := by
  simp only [execute]
  cases hplace : s.placeOf statement args with
  | error f => simp [bind, Except.bind]
  | ok p =>
      cases hs : s.unavailable with
      | true => simp [bind, Except.bind, Store.available, hs]
      | false =>
          have hok : s.available = .ok () := Store.available_eq_ok.2 hs
          simp only [bind, Except.bind, hok, pure, Except.pure, Except.ok.injEq, true_and,
            exists_eq_left']
          split
          · rw [Except.ok.injEq]
            exact eq_comm
          · rw [Except.ok.injEq]
            exact eq_comm

/-- A statement does not change the connection's number. -/
theorem id_of_execute (h : c.execute s statement args = .ok (outcome, d)) : d.id = c.id := by
  obtain ⟨-, p, -, hd⟩ := execute_eq_ok.1 h
  split at hd
  · have hwrite : d = (c.write s p (statement.writtenValue args)).2 := congrArg Prod.snd hd
    rw [hwrite]
    rfl
  · have hread : d = c := congrArg Prod.snd hd
    rw [hread]

/-- An available store commits all writes of a connection. -/
theorem commit_eq_ok :
    c.commit s = .ok (d, t) ↔
      s.unavailable = false ∧ d = { c with writes := [] } ∧
        t = { s.writeAll c.writes with commits := s.commits + 1 } := by
  simp only [commit]
  cases hs : s.unavailable with
  | true => simp [bind, Except.bind, Store.available, hs]
  | false =>
      have hok : s.available = .ok () := Store.available_eq_ok.2 hs
      have hcommits : (s.writeAll c.writes).commits = s.commits := by
        rw [Store.writeAll_eq]
      simp only [bind, Except.bind, hok, pure, Except.pure, Except.ok.injEq, Prod.mk.injEq,
        true_and]
      change _ ∧ { s.writeAll c.writes with commits := (s.writeAll c.writes).commits + 1 } = t ↔ _
      rw [hcommits, eq_comm, and_congr_right_iff]
      intro _
      exact eq_comm

theorem pending?_write (c : Connection) (s : Store) (p q : Place) (value : Value) :
    (c.write s p value).2.pending? q =
      if q = p then
        some ⟨value, (c.pending? p).elim (((s.row? p).getD {}).version + 1) (·.version)⟩
      else c.pending? q := by
  unfold write pending?
  dsimp only
  rw [Ordered.lookup_insertWith_new]
  cases c.writes.lookup p <;> rfl

/-- A write reports the version that the commit gives its row, unless there was a write of the
row before. -/
theorem write_outcome (c : Connection) (s : Store) (p : Place) (value : Value) :
    (c.write s p value).1 =
      ⟨[], some ((c.pending? p).elim (((s.row? p).getD {}).version + 1) (·.version))⟩ := by
  unfold write pending?
  dsimp only
  cases c.writes.lookup p <;> rfl

theorem read_eq (c : Connection) (s : Store) (p : Place) :
    c.read s p = .ofRow ((c.pending? p).or (s.row? p)) := rfl

theorem sorted_write (h : Ordered.Sorted placeLt c.writes) (s : Store) (p : Place)
    (value : Value) : Ordered.Sorted placeLt (c.write s p value).2.writes :=
  Ordered.sorted_insertWith placeLt h

end Connection

namespace Link

variable {l m : Link} {s t : Store} {statement : Statement} {args : List Value}
  {outcome : Outcome}

theorem through_eq_ok {call : StoreCall} : l.through call = .ok () ↔ call ∉ l.failing := by
  simp only [through]
  by_cases h : call ∈ l.failing <;> simp [h]

theorem execute_eq_ok :
    l.execute s statement args = .ok (outcome, m) ↔
      .execute ∉ l.failing ∧ ∃ o c, l.connection.execute s statement args = .ok (o, c) ∧
        outcome = { o with version := l.reported.getD o.version } ∧
        m = { l with connection := c } := by
  simp only [execute]
  by_cases h : StoreCall.execute ∈ l.failing
  · have hthrough : ∃ f, l.through .execute = .error f := ⟨_, if_pos (by simpa using h)⟩
    obtain ⟨f, hf⟩ := hthrough
    simp [hf, bind, Except.bind, h]
  · rw [through_eq_ok.2 h]
    cases hexec : l.connection.execute s statement args with
    | error f => simp [bind, Except.bind]
    | ok done =>
        obtain ⟨o, c⟩ := done
        simp only [bind, Except.bind, pure, Except.pure, Except.ok.injEq, Prod.mk.injEq, h,
          not_false_eq_true, true_and]
        constructor
        · rintro ⟨rfl, rfl⟩
          exact ⟨o, c, ⟨rfl, rfl⟩, rfl, rfl⟩
        · rintro ⟨o', c', ⟨rfl, rfl⟩, rfl, rfl⟩
          exact ⟨rfl, rfl⟩

/-- A statement that gets through to an available store is answered. -/
theorem exists_execute (hl : .execute ∉ l.failing) (hs : s.unavailable = false) {p : Place}
    (hp : s.placeOf statement args = .ok p) :
    ∃ outcome m, l.execute s statement args = .ok (outcome, m) := by
  obtain ⟨done, hdone⟩ : ∃ done, l.connection.execute s statement args = .ok done :=
    ⟨_, Connection.execute_eq_ok.2 ⟨hs, p, hp, Prod.mk.eta⟩⟩
  exact ⟨_, _, execute_eq_ok.2 ⟨hl, done.1, done.2, hdone, rfl, rfl⟩⟩

theorem commit_eq_ok :
    l.commit s = .ok (m, t) ↔
      .commit ∉ l.failing ∧ s.unavailable = false ∧
        m = { l with connection.writes := [] } ∧
        t = { s.writeAll l.connection.writes with commits := s.commits + 1 } := by
  simp only [commit]
  by_cases h : StoreCall.commit ∈ l.failing
  · have hthrough : ∃ f, l.through .commit = .error f := ⟨_, if_pos (by simpa using h)⟩
    obtain ⟨f, hf⟩ := hthrough
    simp [hf, bind, Except.bind, h]
  · rw [through_eq_ok.2 h]
    cases hcommit : l.connection.commit s with
    | error f =>
        have hs : ¬s.unavailable = false := by
          intro hs
          have hok : l.connection.commit s = .ok (_, _) :=
            Connection.commit_eq_ok.2 ⟨hs, rfl, rfl⟩
          rw [hcommit] at hok
          cases hok
        simp [bind, Except.bind, hs]
    | ok done =>
        obtain ⟨hs, hc, ht⟩ := Connection.commit_eq_ok.1 hcommit
        simp only [bind, Except.bind, pure, Except.pure, Except.ok.injEq, Prod.mk.injEq, h, hs,
          not_false_eq_true, true_and, hc, ht]
        rw [eq_comm, and_congr_right_iff]
        intro _
        exact eq_comm

/-- A link that may roll back does so. -/
theorem rollback_eq (h : StoreCall.rollback ∉ l.failing) :
    l.rollback = (.ok (), { l with connection.writes := [] }) := by
  simp only [rollback]
  rw [through_eq_ok.2 h]
  rfl

/-- Whatever becomes of a rollback, nothing but the writes can change. -/
theorem rollback_snd (l : Link) :
    ∃ writes, l.rollback.2 = { l with connection.writes := writes } := by
  simp only [rollback]
  cases l.through .rollback with
  | ok _ => exact ⟨[], rfl⟩
  | error f => exact ⟨l.connection.writes, rfl⟩

/-- A level is recorded by an available store. -/
theorem setLevel_eq_ok {level : IsolationLevel} :
    l.setLevel s level = .ok t ↔
      .isolation ∉ l.failing ∧ s.unavailable = false ∧
        t = { s with
          levels := Ordered.insertWith (fun a b => decide (a < b)) (fun _ new => new)
            l.connection.id level s.levels } := by
  simp only [setLevel, Store.setLevel]
  by_cases h : StoreCall.isolation ∈ l.failing
  · have hthrough : ∃ f, l.through .isolation = .error f := ⟨_, if_pos (by simpa using h)⟩
    obtain ⟨f, hf⟩ := hthrough
    simp [hf, bind, Except.bind, h]
  · rw [through_eq_ok.2 h]
    cases hs : s.unavailable with
    | true => simp [bind, Except.bind, Store.available, hs, Except.map]
    | false =>
        have hok : s.available = .ok () := Store.available_eq_ok.2 hs
        simp only [bind, Except.bind, hok, Except.map, Except.ok.injEq, h, not_false_eq_true,
          true_and]
        exact eq_comm

/-- Only the store refuses a level. -/
theorem setLevel_eq_error {level : IsolationLevel} {f : Fault}
    (h : l.setLevel s level = .error f) :
    f.cls = .store ∧ (.isolation ∈ l.failing ∨ s.unavailable = true) := by
  by_cases hfailing : StoreCall.isolation ∈ l.failing
  · have hthrough : l.through .isolation = .error (.reported .store "injected isolation") :=
      if_pos (by simpa using hfailing)
    simp only [setLevel, hthrough, bind, Except.bind] at h
    cases h
    exact ⟨rfl, .inl hfailing⟩
  · cases hs : s.unavailable with
    | true =>
        simp only [setLevel, through_eq_ok.2 hfailing, Store.setLevel, Store.available, hs, bind,
          Except.bind] at h
        cases h
        exact ⟨rfl, .inr rfl⟩
    | false =>
        have hok : l.setLevel s level = .ok _ := setLevel_eq_ok.2 ⟨hfailing, hs, rfl⟩
        cases h.symm.trans hok

section Faults
variable {f : Fault}

theorem cls_of_through {call : StoreCall} (h : l.through call = .error f) : f.cls = .store := by
  simp only [through] at h
  split at h
  · cases h
    rfl
  · cases h

theorem cls_of_available (h : s.available = .error f) : f.cls = .store := by
  simp only [Store.available] at h
  split at h
  · cases h
    rfl
  · cases h

/-- Only the store fails to tell a version. -/
theorem cls_of_fetch {p : Place} (h : l.fetch s p = .error f) : f.cls = .store := by
  rcases Fault.of_bind h with hthrough | ⟨u, -, hfetch⟩
  · exact cls_of_through hthrough
  · simp only [Store.fetch] at hfetch
    cases havailable : s.available with
    | error g =>
        rw [havailable] at hfetch
        cases hfetch
        exact cls_of_available havailable
    | ok u =>
        rw [havailable] at hfetch
        cases hfetch

/-- Only the store fails to commit. -/
theorem cls_of_commit (h : l.commit s = .error f) : f.cls = .store := by
  rcases Fault.of_bind h with hthrough | ⟨u, -, hcommit⟩
  · exact cls_of_through hthrough
  · rcases Fault.of_bind hcommit with hcommit | ⟨done, -, hdone⟩
    · rcases Fault.of_bind hcommit with havailable | ⟨u, -, hdone⟩
      · exact cls_of_available havailable
      · cases hdone
    · cases hdone

/-- A statement is not answered if the store fails or its row cannot be told. -/
theorem cls_of_execute (h : l.execute s statement args = .error f) :
    f.cls = .store ∨ s.placeOf statement args = .error f := by
  rcases Fault.of_bind h with hthrough | ⟨u, -, hexecute⟩
  · exact .inl (cls_of_through hthrough)
  · rcases Fault.of_bind hexecute with hexecute | ⟨done, -, hdone⟩
    · rcases Fault.of_bind hexecute with hplace | ⟨p, -, hserved⟩
      · exact .inr hplace
      · rcases Fault.of_bind hserved with havailable | ⟨u, -, hdone⟩
        · exact .inl (cls_of_available havailable)
        · split at hdone
          · cases hdone
          · cases hdone
    · cases hdone

end Faults

theorem fetch_eq_ok {p : Place} {v : Option Nat} :
    l.fetch s p = .ok v ↔
      .fetch ∉ l.failing ∧ s.unavailable = false ∧ v = (s.row? p).map (·.version) := by
  simp only [fetch, Store.fetch]
  by_cases h : StoreCall.fetch ∈ l.failing
  · have hthrough : ∃ f, l.through .fetch = .error f := ⟨_, if_pos (by simpa using h)⟩
    obtain ⟨f, hf⟩ := hthrough
    simp [hf, bind, Except.bind, h]
  · rw [through_eq_ok.2 h]
    cases hs : s.unavailable with
    | true => simp [bind, Except.bind, Store.available, hs, Except.map]
    | false =>
        have hok : s.available = .ok () := Store.available_eq_ok.2 hs
        simp only [bind, Except.bind, hok, Except.map, Except.ok.injEq, h, not_false_eq_true,
          true_and]
        exact eq_comm

end Link

end LiveIsolation
