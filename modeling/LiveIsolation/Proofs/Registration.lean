import LiveIsolation.Proofs.ConflictGraph.Conflicts
import LiveIsolation.Workload

/-!
# Runs of registrations

Whatever has been registered in whatever order, and whatever has been refused on the way, every
template of a registry has its place as its number and a name of its own, and no statement is
marked before the analysis (`Registry.sound_run`).
-/

namespace LiveIsolation

inductive RegistryCall where
  | transaction (name : String)
  /-- A statement joins a transaction, with the text that a rule gives it. -/
  | statement (rule : SqlRule) (transaction : String) (spec : StatementSpec)

namespace Registry

variable {r s : Registry} {name : String} {i : Nat}

def take (r : Registry) : RegistryCall → Registry
  | .transaction name => (r.addTransaction name).2
  | .statement rule name spec => (r.addStatement rule name spec).2

/-- The registry after some calls. -/
def run (calls : List RegistryCall) : Registry := calls.foldl take {}

/-- A name is registered if it is neither blank nor there. -/
theorem addTransaction_eq_ok :
    r.addTransaction name = (.ok i, s) ↔ Text.isBlank name = false ∧ r.find? name = none ∧
      i = r.templates.length ∧ s = ⟨r.templates ++ [{ id := r.templates.length, name }]⟩ := by
  rw [addTransaction]
  cases Text.isBlank name with
  | true => simp
  | false => cases r.find? name <;> simp [eq_comm]

theorem addStatement_eq_ok {rule : SqlRule} {spec : StatementSpec}
    (h : r.addStatement rule name spec = (.ok i, s)) :
    ∃ t sql, r.find? name = some t ∧ t.statements.length < Transaction.capacity ∧
      s = ⟨r.templates.set t.id
        { t with statements := t.statements ++ [{ spec with sql }] }⟩ := by
  rw [addStatement] at h
  split at h
  · cases h
  · rename_i t ht
    split at h
    · cases h
    · split at h
      · cases h
      · rename_i sql _
        split at h
        · cases h
        · rename_i place u hpush
          obtain ⟨hlength, -, rfl⟩ := Transaction.push_eq_ok_iff.1 hpush
          obtain ⟨-, rfl⟩ := Prod.mk.inj h
          exact ⟨t, sql, ht, hlength, rfl⟩

/-- A transaction that is not registered leaves the registry as it was. -/
theorem addTransaction_eq_error {f : Fault} (h : r.addTransaction name = (.error f, s)) :
    s = r := by
  rw [addTransaction] at h
  split at h
  · exact (congrArg Prod.snd h).symm
  · split at h
    · exact (congrArg Prod.snd h).symm
    · cases h

/-- A statement that is not registered leaves the registry as it was. -/
theorem addStatement_eq_error {rule : SqlRule} {spec : StatementSpec} {f : Fault}
    (h : r.addStatement rule name spec = (.error f, s)) : s = r := by
  rw [addStatement] at h
  repeat' split at h
  all_goals first | exact (congrArg Prod.snd h).symm | cases h

/-- An analysis that succeeds leaves out no step. -/
theorem analyze_eq_ok {w : Workload} (h : r.analyze = .ok w) :
    (∀ t ∈ r.templates, t.statements ≠ []) ∧ w.graph = ConflictGraph.build r.templates ∧
      w.report = w.graph.dangers ∧ w.report.applyTo r.templates = (.ok (), w.templates) := by
  rw [analyze] at h
  split at h
  · cases h
  · rename_i hnone
    cases happly : (ConflictGraph.build r.templates).dangers.applyTo r.templates with
    | mk result templates =>
        simp only [happly] at h
        cases result with
        | error e => cases h
        | ok u =>
            obtain rfl := Except.ok.inj h
            refine ⟨?_, rfl, rfl, happly⟩
            intro t ht hempty
            exact List.find?_eq_none.1 hnone t ht (List.isEmpty_iff.2 hempty)

/-- What is true of every registry. -/
structure Sound (r : Registry) : Prop where
  numbered : ConflictGraph.Numbered r.templates
  names_nodup : (r.templates.map Transaction.name).Nodup
  unmarked : ∀ t ∈ r.templates, ∀ a ∈ t.statements, ∀ d, a.validated d = false

theorem sound_empty : ({} : Registry).Sound where
  numbered k t ht := by cases ht
  names_nodup := List.nodup_nil
  unmarked t ht := absurd ht List.not_mem_nil

theorem Sound.addTransaction (h : r.Sound) (hname : r.find? name = none) :
    Sound ⟨r.templates ++ [{ id := r.templates.length, name }]⟩ where
  numbered k t ht := by
    rw [List.getElem?_append] at ht
    split at ht
    · exact h.numbered k t ht
    · rename_i hk
      rw [List.getElem?_singleton] at ht
      split at ht
      · rw [← Option.some.inj ht]
        change r.templates.length = k
        omega
      · cases ht
  names_nodup := by
    rw [List.map_append, List.map_singleton, List.nodup_append]
    refine ⟨h.names_nodup, List.pairwise_singleton _ _, ?_⟩
    intro a ha b hb
    obtain ⟨t, ht, rfl⟩ := List.mem_map.1 ha
    rw [List.mem_singleton.1 hb]
    exact fun he => List.find?_eq_none.1 hname t ht (beq_iff_eq.2 he)
  unmarked t ht a ha d := by
    rcases List.mem_append.1 ht with ht | ht
    · exact h.unmarked t ht a ha d
    · rw [List.mem_singleton.1 ht] at ha
      exact absurd ha List.not_mem_nil

/-- A template that is found is registered under the name, and stands at its number. -/
theorem Sound.of_find? (h : r.Sound) {t : Transaction} (ht : r.find? name = some t) :
    r.templates[t.id]? = some t ∧ t.name = name := by
  obtain ⟨k, hk⟩ := List.mem_iff_getElem?.1 (List.mem_of_find?_eq_some ht)
  refine ⟨?_, beq_iff_eq.1 (List.find?_some (p := fun x : Transaction => x.name == name) ht)⟩
  rw [h.numbered k t hk]
  exact hk

theorem Sound.setStatements (h : r.Sound) {t : Transaction}
    (ht : r.templates[t.id]? = some t) {statements : List Statement}
    (hunmarked : ∀ a ∈ statements, ∀ d, a.validated d = false) :
    Sound ⟨r.templates.set t.id { t with statements }⟩ where
  numbered k u hu := by
    rw [List.getElem?_set] at hu
    split at hu
    · rename_i hk
      split at hu
      · rw [← Option.some.inj hu]
        exact hk
      · cases hu
    · exact h.numbered k u hu
  names_nodup := by
    have hnames : (r.templates.set t.id { t with statements }).map Transaction.name =
        r.templates.map Transaction.name := by
      apply List.ext_getElem?
      intro k
      rw [List.getElem?_map, List.getElem?_map, List.getElem?_set]
      split
      · rename_i hk
        rw [← hk, ht, if_pos (List.getElem?_eq_some_iff.1 ht).1]
        rfl
      · rfl
    rw [hnames]
    exact h.names_nodup
  unmarked u hu a ha d := by
    rcases List.mem_or_eq_of_mem_set hu with hu | rfl
    · exact h.unmarked u hu a ha d
    · exact hunmarked a ha d

theorem Sound.take (h : r.Sound) (call : RegistryCall) : (r.take call).Sound := by
  cases call with
  | transaction name =>
      rw [Registry.take]
      rcases hadd : r.addTransaction name with ⟨f | i, s⟩
      · rw [addTransaction_eq_error hadd]
        exact h
      · obtain ⟨-, hname, -, rfl⟩ := addTransaction_eq_ok.1 hadd
        exact h.addTransaction hname
  | statement rule name spec =>
      rw [Registry.take]
      rcases hadd : r.addStatement rule name spec with ⟨f | i, s⟩
      · rw [addStatement_eq_error hadd]
        exact h
      · obtain ⟨t, sql, ht, -, rfl⟩ := addStatement_eq_ok hadd
        obtain ⟨hplace, -⟩ := h.of_find? ht
        apply h.setStatements hplace
        intro a ha d
        rcases List.mem_append.1 ha with ha | ha
        · exact h.unmarked t (List.mem_of_getElem? hplace) a ha d
        · rw [List.mem_singleton.1 ha]
          cases d <;> rfl

theorem Sound.foldl_take (h : r.Sound) (calls : List RegistryCall) :
    (calls.foldl Registry.take r).Sound := by
  induction calls generalizing r with
  | nil => exact h
  | cons call rest ih => exact ih (h.take call)

/-- Every registry is sound. -/
theorem sound_run (calls : List RegistryCall) : (run calls).Sound := sound_empty.foldl_take calls

end Registry

end LiveIsolation
