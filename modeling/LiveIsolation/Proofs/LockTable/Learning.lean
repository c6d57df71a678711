import LiveIsolation.Proofs.LockTable.Whole
import LiveIsolation.Proofs.Obligation

/-!
# What a validation learns

A validation goes through its observations in order and makes versions known on the way, so that
each is compared in another table. Yet what it finds, and what it leaves, is said by the table that
it was started in: a version that becomes known is the one that would be asked for
(`LockTable.current_learned`).
-/

namespace LiveIsolation

/-- The rows of which a version was observed, in order and with repetitions. -/
def observedPlaces (os : List Obligation) : List Place :=
  (os.filter (·.observed.isSome)).map Obligation.place

namespace Lock

/-- A version is known if there is one and none was known. All else stays. -/
def learn (l : Lock) (v : Option Nat) : Lock := { l with version := l.version.or v }

@[simp] theorem learn_none (l : Lock) : l.learn none = l := by
  simp [learn]

theorem learn_learn (l : Lock) (v : Option Nat) : (l.learn v).learn v = l.learn v := by
  simp [learn, Option.or_assoc]

/-- Asking for a version leaves the lock with the version that the store would report. -/
theorem currentVersion_on (l : Lock) (fetch : Except Fault (Option Nat)) (retries : Nat) :
    ((LockOp.currentVersion fetch).on retries l).2 = l.learn fetch.toOption.join := by
  cases l with
  | mk holder count maxHolder minWriteWait maxWriteWait minReadWait version contended =>
      simp only [LockOp.on, learn]
      cases version with
      | some v => rfl
      | none =>
          cases fetch with
          | error f => rfl
          | ok fetched => cases fetched <;> rfl

end Lock

namespace LockTable

variable {t t' t'' : LockTable} {known : List String} {fetch : VersionSource} {p : Place}
  {os : List Obligation} {o : Obligation}

/-- The version that is known for a row, or else what the store reports. -/
def current (t : LockTable) (fetch : VersionSource) (p : Place) : Except Fault (Option Nat) :=
  (t.cached? p).elim (fetch p.1 p.2) fun v => .ok (some v)

/-- The conflict of an obligation that observed another version than the current one. -/
def changed? (t : LockTable) (fetch : VersionSource) (o : Obligation) : Option Conflict :=
  match o.observed, t.current fetch o.place with
  | some v, .ok (some c) => if c = v then none else some (.stale o.relation o.key v c)
  | _, _ => none

/-- The rows of a list that the store is asked for. No version of them is known, and where the store
has reported one, it is not asked again. -/
def askedFor (t : LockTable) (fetch : VersionSource) (ps : List Place) : List Place :=
  selected (fun earlier p =>
    t.cached? p = none ∧ (p ∈ earlier → (fetch p.1 p.2).toOption.join = none)) ps

/-- The locks after rows have been validated: what the store reports for them is known, unless a
version was known before. -/
def learned (t : LockTable) (fetch : VersionSource) (ps : List Place) (p : Place) : Lock :=
  if p ∈ ps then (t.lockAt p).learn (fetch p.1 p.2).toOption.join else t.lockAt p

/-- What validating a list of obligations comes to. -/
inductive Validated (t : LockTable) (fetch : VersionSource) (os : List Obligation) :
    VersionCheck → Prop where
  | complete (hanswered : ∀ p ∈ observedPlaces os, ∃ v, t.current fetch p = .ok v)
    (t' : LockTable) (hlocks : t'.lockAt = t.learned fetch (observedPlaces os)) :
    Validated t fetch os
      ⟨.ok (os.filterMap (t.changed? fetch)), t.askedFor fetch (observedPlaces os), t'⟩
  | failed (before : List Obligation) (o : Obligation) (after : List Obligation)
    (hsplit : os = before ++ o :: after)
    (hanswered : ∀ p ∈ observedPlaces before, ∃ v, t.current fetch p = .ok v)
    (hobserved : o.observed ≠ none) (hunknown : t.cached? o.place = none) (f : Fault)
    (hfetch : fetch o.relation o.key = .error f) (t' : LockTable)
    (hlocks : t'.lockAt = t.learned fetch (observedPlaces before)) :
    Validated t fetch os
      ⟨.error f, t.askedFor fetch (observedPlaces before) ++ [o.place], t'⟩

section Learned

theorem observedPlaces_concat (os : List Obligation) (o : Obligation) :
    observedPlaces (os ++ [o]) =
      observedPlaces os ++ if o.observed.isSome then [o.place] else [] := by
  rw [observedPlaces, List.filter_append, List.map_append, ← observedPlaces]
  cases ho : o.observed <;> simp [ho]

theorem learned_nil (t : LockTable) (fetch : VersionSource) : t.learned fetch [] = t.lockAt := by
  funext p
  rw [learned, if_neg List.not_mem_nil]

/-- The version that is known for a row after rows have been validated. -/
theorem cached?_of_learned {ps : List Place} (h : t'.lockAt = t.learned fetch ps) (p : Place) :
    t'.cached? p =
      if p ∈ ps then (t.cached? p).or (fetch p.1 p.2).toOption.join else t.cached? p := by
  rw [cached?, h, learned]
  split
  · rfl
  · rfl

/-- What becomes known is what would be asked for. -/
theorem current_learned {ps : List Place} (h : t'.lockAt = t.learned fetch ps) :
    t'.current fetch = t.current fetch := by
  funext p
  rw [current, cached?_of_learned h, current]
  split
  · cases t.cached? p with
    | some v => rfl
    | none =>
        cases hf : fetch p.1 p.2 with
        | error f => rfl
        | ok v => cases v <;> rfl
  · rfl

theorem current_eq_error {f : Fault} (h : t.current fetch p = .error f) :
    t.cached? p = none ∧ fetch p.1 p.2 = .error f := by
  rw [current] at h
  cases hc : t.cached? p with
  | none => exact ⟨rfl, by simpa [hc] using h⟩
  | some v =>
      rw [hc] at h
      cases h

theorem changed?_learned {ps : List Place} (h : t'.lockAt = t.learned fetch ps) :
    t'.changed? fetch = t.changed? fetch := by
  funext o
  rw [changed?, current_learned h, changed?]

theorem learned_concat {ps : List Place} (h : t'.lockAt = t.learned fetch ps)
    (h' : t''.lockAt = t'.learned fetch [p]) : t''.lockAt = t.learned fetch (ps ++ [p]) := by
  funext q
  rw [h', learned, h, learned, learned]
  simp only [List.mem_append, List.mem_singleton]
  by_cases hq : q = p
  · subst hq
    by_cases hmem : q ∈ ps <;> simp [hmem, Lock.learn_learn]
  · simp [hq]

/-- What the store does not report is not learned. -/
theorem learned_of_error {f : Fault} (hfetch : fetch p.1 p.2 = .error f) :
    t.learned fetch [p] = t.lockAt := by
  funext q
  rw [learned]
  split
  · rename_i hq
    rw [List.mem_singleton.1 hq, hfetch]
    exact Lock.learn_none _
  · rfl

theorem currentVersion_learns (h : t.Whole known) (hp : p.1 ∈ known) (fetch : VersionSource) :
    ∃ t', t.currentVersion p.1 p.2 (fetch p.1 p.2) =
        (⟨t.current fetch p, (t.cached? p).isNone⟩, t') ∧
      t'.Whole known ∧ t'.lockAt = t.learned fetch [p] := by
  obtain ⟨answer, t', hcurrent, -, -, hanswer, -⟩ := currentVersion_eq h.fit hp (fetch p.1 p.2)
  have hreaches := t.reaches_currentVersion p.1 p.2 (fetch p.1 p.2)
  rw [hcurrent] at hreaches
  refine ⟨t', by rw [hcurrent, hanswer, current], h.of_reaches hreaches, ?_⟩
  have hlearn := (t.lockAt p).currentVersion_on (fetch p.1 p.2) t.config.wait.retries
  cases hop : (LockOp.currentVersion (fetch p.1 p.2)).on t.config.wait.retries (t.lockAt p) with
  | mk reply l =>
      rw [hop] at hlearn
      have hlocks := (h.serve_eq (c := ⟨p.1, p.2, .currentVersion (fetch p.1 p.2)⟩) hp hop).2
      simp only [serve, hcurrent, LockCall.place, Prod.map_snd, id_eq] at hlocks
      funext q
      rw [hlocks, Function.update_apply, learned]
      by_cases hq : q = p
      · rw [if_pos hq, if_pos (List.mem_singleton.2 hq), hq]
        exact hlearn
      · rw [if_neg hq, if_neg fun hmem => hq (List.mem_singleton.1 hmem)]

end Learned

section Validate

/-- A validation goes on with later obligations where it has not failed on earlier ones. -/
theorem validate_append (t : LockTable) (fetch : VersionSource) (os later : List Obligation) :
    t.validate fetch (os ++ later) =
      match (t.validate fetch os).conflicts with
      | .error _ => t.validate fetch os
      | .ok cs =>
        let rest := (t.validate fetch os).table.validate fetch later
        ⟨rest.conflicts.map (cs ++ ·), (t.validate fetch os).fetched ++ rest.fetched,
          rest.table⟩ := by
  induction os generalizing t with
  | nil =>
      simp only [List.nil_append, validate]
      cases hc : (t.validate fetch later).conflicts <;> simp [Except.map, ← hc]
  | cons o rest ih =>
      simp only [List.cons_append, validate]
      cases o.observed with
      | none => exact ih t
      | some v =>
          dsimp only
          generalize t.currentVersion o.relation o.key (fetch o.relation o.key) = x
          obtain ⟨⟨answer, asked⟩, t₁⟩ := x
          cases answer with
          | error f => rfl
          | ok c =>
              dsimp only
              rw [ih t₁]
              cases hrest : (t₁.validate fetch rest).conflicts with
              | error f => simp [Except.map, hrest]
              | ok cs =>
                  simp only [Except.map]
                  cases ((t₁.validate fetch rest).table.validate fetch later).conflicts <;>
                    simp

/-- One observation is compared with the current version of its row. -/
theorem validate_single (h : t.Whole known) (ho : o.relation ∈ known) {v : Nat}
    (hobserved : o.observed = some v) (fetch : VersionSource) :
    ∃ t', t'.Whole known ∧ t'.lockAt = t.learned fetch [o.place] ∧
      t.validate fetch [o] =
        ⟨(t.current fetch o.place).map fun _ => (t.changed? fetch o).toList,
          if t.cached? o.place = none then [o.place] else [], t'⟩ := by
  obtain ⟨t', hcurrent, hwhole, hlocks⟩ := currentVersion_learns (p := o.place) h ho fetch
  have hcurrent' : t.currentVersion o.relation o.key (fetch o.relation o.key) =
      (⟨t.current fetch o.place, (t.cached? o.place).isNone⟩, t') := hcurrent
  refine ⟨t', hwhole, hlocks, ?_⟩
  simp only [validate, hobserved, hcurrent', Option.isNone_iff_eq_none, changed?]
  cases t.current fetch o.place with
  | error f => rfl
  | ok c =>
      cases c with
      | none => simp [staleness, Except.map]
      | some c =>
          by_cases hc : c = v <;> simp [staleness, Except.map, hc]

/-- After a list that has been validated to its end, one more observation is compared. -/
theorem validated_concat (hwhole : t'.Whole known) (ho : o.relation ∈ known)
    (hobserved : o.observed.isSome = true)
    (hanswered : ∀ p ∈ observedPlaces os, ∃ v, t.current fetch p = .ok v)
    (hlocks : t'.lockAt = t.learned fetch (observedPlaces os)) :
    t.Validated fetch (os ++ [o])
      ⟨(t'.validate fetch [o]).conflicts.map (os.filterMap (t.changed? fetch) ++ ·),
        t.askedFor fetch (observedPlaces os) ++ (t'.validate fetch [o]).fetched,
        (t'.validate fetch [o]).table⟩ ∧ (t'.validate fetch [o]).table.Whole known := by
  obtain ⟨v, hv⟩ := Option.isSome_iff_exists.1 hobserved
  have hplaces := observedPlaces_concat os o
  rw [if_pos hobserved] at hplaces
  obtain ⟨t'', hwhole', hlocks', hsingle⟩ := validate_single hwhole ho hv fetch
  refine ⟨?_, by simpa only [hsingle] using hwhole'⟩
  simp only [hsingle, current_learned hlocks, changed?_learned hlocks]
  cases hcurrent : t.current fetch o.place with
  | ok c =>
      have hasked : t.askedFor fetch (observedPlaces os ++ [o.place]) =
          t.askedFor fetch (observedPlaces os) ++
            if t'.cached? o.place = none then [o.place] else [] := by
        rw [askedFor, selected_concat, ← askedFor, cached?_of_learned hlocks]
        grind
      have hconflicts : os.filterMap (t.changed? fetch) ++ (t.changed? fetch o).toList =
          (os ++ [o]).filterMap (t.changed? fetch) := by
        rw [List.filterMap_append]
        cases hchanged : t.changed? fetch o <;> simp [hchanged]
      simp only [Except.map, ← hasked, hconflicts, ← hplaces]
      refine .complete ?_ t'' (hplaces ▸ learned_concat hlocks hlocks')
      rw [hplaces]
      intro p hp
      rcases List.mem_append.1 hp with hp | hp
      · exact hanswered p hp
      · exact ⟨c, List.mem_singleton.1 hp ▸ hcurrent⟩
  | error f =>
      obtain ⟨hunknown, hfetch⟩ := current_eq_error hcurrent
      have hstill : t'.cached? o.place = none := by
        rw [cached?_of_learned hlocks, hunknown, hfetch]
        exact ite_self none
      rw [learned_of_error hfetch] at hlocks'
      simp only [Except.map, if_pos hstill]
      exact .failed os o [] rfl hanswered (by simp [hv]) hunknown f hfetch t''
        (hlocks'.trans hlocks)

/-- The obligations of a list are validated one after another, and each finds the table as those
before it have left it. -/
theorem validate_validated (h : t.Whole known) (hos : ∀ o ∈ os, o.relation ∈ known)
    (fetch : VersionSource) :
    t.Validated fetch os (t.validate fetch os) ∧ (t.validate fetch os).table.Whole known := by
  induction os using List.reverseRecOn with
  | nil => exact ⟨.complete (by simp [observedPlaces]) t (learned_nil t fetch).symm, h⟩
  | append_singleton os o ih =>
      obtain ⟨hearlier, hwhole⟩ := ih fun x hx => hos x (List.mem_append_left _ hx)
      rw [validate_append]
      generalize t.validate fetch os = x at hearlier hwhole ⊢
      cases hearlier with
      | failed before o' after hsplit hanswered hobserved hunknown f hfetch t' hlocks =>
          exact ⟨.failed before o' (after ++ [o]) (by simp [hsplit]) hanswered hobserved hunknown f
            hfetch t' hlocks, hwhole⟩
      | complete hanswered t' hlocks =>
          cases hobserved : o.observed with
          | some v =>
              have hsome : o.observed.isSome = true := by rw [hobserved]; rfl
              exact validated_concat hwhole (hos o (by simp)) hsome hanswered hlocks
          | none =>
              have hplaces : observedPlaces (os ++ [o]) = observedPlaces os := by
                simp [observedPlaces_concat, hobserved]
              have hconflicts : (os ++ [o]).filterMap (t.changed? fetch) =
                  os.filterMap (t.changed? fetch) := by
                simp [List.filterMap_append, changed?, hobserved]
              have hcomplete : t.Validated fetch (os ++ [o])
                  ⟨.ok (os.filterMap (t.changed? fetch)), t.askedFor fetch (observedPlaces os),
                    t'⟩ := by
                rw [← hconflicts, ← hplaces]
                exact .complete (hplaces ▸ hanswered) t' (hplaces ▸ hlocks)
              simpa [validate, hobserved, Except.map] using And.intro hcomplete hwhole

/-- The conflicts depend on the current versions alone. -/
theorem conflicts_congr (h : t.Whole known) (h' : t'.Whole known)
    (hos : ∀ o ∈ os, o.relation ∈ known) (hcurrent : t'.current fetch = t.current fetch) :
    (t'.validate fetch os).conflicts = (t.validate fetch os).conflicts := by
  induction os generalizing t t' with
  | nil => rfl
  | cons o rest ih =>
      have hrest : ∀ x ∈ rest, x.relation ∈ known := fun x hx => hos x (List.mem_cons_of_mem o hx)
      cases hobserved : o.observed with
      | none =>
          simp only [validate, hobserved]
          exact ih h h' hrest hcurrent
      | some v =>
          obtain ⟨t₁, hask, hwhole, hlocks⟩ :=
            currentVersion_learns (p := o.place) h (hos o List.mem_cons_self) fetch
          obtain ⟨t₁', hask', hwhole', hlocks'⟩ :=
            currentVersion_learns (p := o.place) h' (hos o List.mem_cons_self) fetch
          have hlater : (t₁'.validate fetch rest).conflicts = (t₁.validate fetch rest).conflicts :=
            ih hwhole hwhole' hrest (by
              rw [current_learned hlocks, current_learned hlocks', hcurrent])
          have hfirst : t.currentVersion o.relation o.key (fetch o.relation o.key) =
              (⟨t.current fetch o.place, (t.cached? o.place).isNone⟩, t₁) := hask
          have hfirst' : t'.currentVersion o.relation o.key (fetch o.relation o.key) =
              (⟨t.current fetch o.place, (t'.cached? o.place).isNone⟩, t₁') := hcurrent ▸ hask'
          simp only [validate, hobserved, hfirst, hfirst']
          cases t.current fetch o.place with
          | error f => rfl
          | ok c => simp only [hlater]

/-- Whatever calls a table has served, a validation goes through the observed versions in order
and compares each with the known version of its row, or else with the one that the store reports;
its conflicts are those of the rows whose current version is another one. It asks the store only
where no version is known, and what the store reports is known afterwards; nothing else changes. A
fault of the store ends it, with what was learned before. The same validation once more finds the
same conflicts. -/
theorem validation_finds_changed {relations : List String} {config : LockTableConfig}
    {t₀ : LockTable} (hcreate : create relations config = .ok t₀) (hreaches : t₀.Reaches t)
    (fetch : VersionSource) (hos : ∀ o ∈ os, o.relation ∈ relations) :
    t.Validated fetch os (t.validate fetch os) ∧
      ((t.validate fetch os).table.validate fetch os).conflicts =
        (t.validate fetch os).conflicts := by
  have hwhole := (whole_create hcreate).of_reaches hreaches
  obtain ⟨hvalidated, hwhole'⟩ := validate_validated hwhole hos fetch
  refine ⟨hvalidated, conflicts_congr hwhole hwhole' hos ?_⟩
  generalize t.validate fetch os = x at hvalidated
  cases hvalidated with
  | complete hanswered t' hlocks => exact current_learned hlocks
  | failed before o after hsplit hanswered hobserved hunknown f hfetch t' hlocks =>
      exact current_learned hlocks

/-- The version 3 is known for the row 1. -/
def knowsOne : List LockCall := [⟨"x", 1, .updateVersion 3⟩]

/-- The rows 1 and 2 are observed, the latter twice and with different versions, and a row whose
version the store cannot tell. -/
def observesThree : List Obligation :=
  [⟨⟨0, 0⟩, "x", 2, .read, some 4⟩, ⟨⟨0, 1⟩, "x", 1, .read, some 3⟩, ⟨⟨0, 2⟩, "x", 5, .read, none⟩,
    ⟨⟨0, 3⟩, "x", 2, .write, some 7⟩, ⟨⟨0, 4⟩, "x", 9, .scan, some 1⟩]

/-- A store that knows the version of the row 2 and fails for the row 9. -/
def knowsTwo : VersionSource := fun relation key =>
  if key = 9 then .error (.unknownRelation relation)
  else .ok (if key = 2 then some 7 else none)

/-- The store is asked for the row 2 once, and fails when it is asked for the row 9. -/
theorem validation_of_observesThree :
    ∃ t₀ t, create ["x"] {} = .ok t₀ ∧ t₀.Reaches t ∧ (∀ o ∈ observesThree, o.relation ∈ ["x"]) ∧
      t.Validated knowsTwo observesThree (t.validate knowsTwo observesThree) ∧
      (t.validate knowsTwo observesThree).conflicts = .error (.unknownRelation "x") ∧
      (t.validate knowsTwo observesThree).fetched = [("x", 2), ("x", 9)] ∧
      (t.validate knowsTwo observesThree).table.cached? ("x", 2) = some 7 := by
  have hcreate : create ["x"] {} = .ok ⟨{}, [("x", {})]⟩ := rfl
  have hreaches : Reaches ⟨{}, [("x", {})]⟩
      (LockCall.serveAll LockTable.serve ⟨{}, [("x", {})]⟩ knowsOne).2 := ⟨knowsOne, rfl⟩
  have hos : ∀ o ∈ observesThree, o.relation ∈ ["x"] := by decide
  have hfails : let t := (LockCall.serveAll LockTable.serve ⟨{}, [("x", {})]⟩ knowsOne).2
      (t.validate knowsTwo observesThree).conflicts = .error (.unknownRelation "x") ∧
      (t.validate knowsTwo observesThree).fetched = [("x", 2), ("x", 9)] ∧
      (t.validate knowsTwo observesThree).table.cached? ("x", 2) = some 7 := by
    decide +kernel
  exact ⟨_, _, hcreate, hreaches, hos, (validation_finds_changed hcreate hreaches knowsTwo hos).1,
    hfails⟩

/-- Before that, one of the observed versions was found to have changed. -/
example :
    let t := (LockCall.serveAll LockTable.serve ⟨{}, [("x", {})]⟩ knowsOne).2
    (t.validate knowsTwo (observesThree.take 4)).conflicts = .ok [.stale "x" 2 4 7] := by
  decide +kernel

end Validate

end LockTable

end LiveIsolation
