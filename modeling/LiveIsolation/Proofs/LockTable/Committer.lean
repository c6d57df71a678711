import LiveIsolation.Proofs.LockTable.Race
import LiveIsolation.Proofs.Obligation

/-!
# The moves of one commit

A move takes one lock of the plan, gives one back, or leaves the locks alone (`Change`). The locks
are taken in the order of the plan and each once, so that a commit which has come to its
validation holds the rows of all its obligations, and one that has come to the end of it without a
conflict has compared each of them (`Orderly`).
-/

namespace LiveIsolation

namespace Committer

variable {c : Committer} {t : LockTable} {p : Place} {kind : LockKind}

theorem Holds.mem_places (h : c.Holds p kind) : p ∈ c.held.places :=
  List.mem_map.2 ⟨_, h, rfl⟩

theorem exists_holds (h : p ∈ c.held.places) : ∃ kind, c.Holds p kind := by
  obtain ⟨q, hq, rfl⟩ := List.mem_map.1 h
  exact ⟨q.kind, hq⟩

/-- Every obligation is still to be validated or has been compared, and as long as no conflict
is found the comparison was with the version that it saw, or with none. -/
def Checks (c : Committer) (rest : List Obligation) (found : List Conflict) : Prop :=
  ∀ o ∈ c.duties, o ∈ rest ∨ ∀ v, o.observed = some v →
    ∃ current, (o, current) ∈ c.compared ∧ (found = [] → current = none ∨ current = some v)

/-- The guard of a commit holds a part of its plan, and all of it while the commit validates. -/
structure Orderly (c : Committer) : Prop where
  sub : c.held.Sublist c.plan
  at_stage :
    match c.stage with
    | .idle => c.held = [] ∧ c.compared = []
    | .locking rest _ => c.held ++ rest = c.plan ∧ c.compared = []
    | .validating rest found _ => c.held = c.plan ∧ c.Checks rest found
    | _ => True

/-- A commit that has not begun. -/
theorem orderly_idle (discipline : Discipline) (obligations : Obligations) :
    ({ discipline, obligations } : Committer).Orderly :=
  ⟨List.nil_sublist _, rfl, rfl⟩

theorem nodup_places_plan (c : Committer) : c.plan.places.Nodup :=
  LockPlan.nodup_places_ofObligations c.duties

theorem Orderly.nodup (h : c.Orderly) : c.held.places.Nodup :=
  (nodup_places_plan c).sublist (h.sub.map LockRequest.place)

/-- While a commit validates, it holds the rows of all its obligations. -/
theorem Orderly.holds_duty (h : c.Orderly) {rest : List Obligation} {found : List Conflict}
    {lookup : Lookup} (hstage : c.stage = .validating rest found lookup) {o : Obligation}
    (ho : o ∈ c.duties) : o.place ∈ c.held.places := by
  have hall := h.at_stage
  rw [hstage] at hall
  rw [hall.1]
  exact LockPlan.mem_places_ofObligations.2 ⟨o, ho, rfl⟩

/-- A row that is held with an exclusive lock is written by the commit. -/
theorem Orderly.writes_of_holds (h : c.Orderly) (hp : c.Holds p .exclusive) :
    ∃ o ∈ c.duties, o.place = p ∧ o.kind.isWrite = true :=
  LockPlan.writes_ofObligations.1 (LockPlan.writes_eq_true.2 ⟨_, h.sub.subset hp, rfl, rfl⟩)

theorem request_eq_iff {q : LockRequest} :
    (⟨p.1, p.2, kind⟩ : LockRequest) = q ↔ p = q.place ∧ kind = q.kind :=
  LockRequest.eq_iff

theorem holds_of_concat {c' : Committer} {q : LockRequest} (h : c'.held = c.held ++ [q]) :
    c'.Holds p kind ↔ c.Holds p kind ∨ p = q.place ∧ kind = q.kind := by
  rw [Holds, h, List.mem_append, List.mem_singleton, request_eq_iff]
  exact Iff.rfl

theorem holds_of_cons {c' : Committer} {q : LockRequest} (h : c.held = q :: c'.held) :
    c.Holds p kind ↔ (p = q.place ∧ kind = q.kind) ∨ c'.Holds p kind := by
  rw [Holds, h, List.mem_cons, request_eq_iff]
  exact Iff.rfl

/-- The row of the next lock to be given back is held once. -/
theorem Orderly.notMem_of_cons (h : c.Orderly) {c' : Committer} {q : LockRequest}
    (hheld : c.held = q :: c'.held) : q.place ∉ c'.held.places := by
  have hnodup := h.nodup
  rw [hheld] at hnodup
  exact (List.nodup_cons.1 hnodup).1

/-- What a move makes of the locks: it leaves the holders alone, or takes one more lock, or
gives one back. An obligation that is found to agree has seen the version that is known. -/
inductive Change (c : Committer) (t : LockTable) : Committer × LockTable → Prop where
  | aside (c' : Committer) (t' : LockTable) (hheld : c'.held = c.held)
    (hagreed : ∀ o, c'.Agreed o → c.Agreed o ∨ t'.cached? o.place = o.observed)
    (hhold : t'.hold? = t.hold?)
    (hcached : ∀ p v, t.cached? p = some v → t'.cached? p = some v) : Change c t (c', t')
  | took (c' : Committer) (t' : LockTable) (q : LockRequest) (hnew : q.place ∉ c.held.places)
    (hheld : c'.held = c.held ++ [q]) (hcompared : c'.compared = [])
    (hhold : t'.hold? = Function.update t.hold? q.place
      (Lock.joined (t.hold? q.place) q.kind))
    (hbeside : ∀ k n, t.hold? q.place = some (k, n) →
      k = q.kind ∧ (q.kind = .exclusive → c.discipline = .readCommitted))
    (hcached : t'.cached? = t.cached?) : Change c t (c', t')
  | gaveBack (c' : Committer) (q : LockRequest) (rest : LockPlan) (advance : Bool)
    (hstage : c.stage = .releasing advance) (hheld : c.held = q :: rest) (hheld' : c'.held = rest)
    (hcompared : c'.compared = c.compared) :
    Change c t (c', (t.release q.relation q.key q.kind advance).2)

/-- What a move comes to. -/
structure Moved (c : Committer) (t : LockTable) (x : Committer × LockTable) : Prop where
  discipline : x.1.discipline = c.discipline
  obligations : x.1.obligations = c.obligations
  compared : ∀ e ∈ c.compared, e ∈ x.1.compared
  orderly : x.1.Orderly
  fit : x.2.Fit []
  change : c.Change t x

/-- A move that leaves both the guard and the table alone. -/
theorem Moved.ofStage (hfit : t.Fit []) {stage : CommitStage}
    (hstage : ({ c with stage } : Committer).Orderly) : c.Moved t ({ c with stage }, t) where
  discipline := rfl
  obligations := rfl
  compared _ he := he
  orderly := hstage
  fit := hfit
  change := .aside _ _ rfl (fun _ ho => .inl ho) rfl fun _ _ hv => hv

theorem Moved.refl (ho : c.Orderly) (hfit : t.Fit []) : c.Moved t (c, t) := by
  have hsame : c.Moved t ({ c with stage := c.stage }, t) := .ofStage hfit ho
  exact hsame

theorem Orderly.leave (h : c.Orderly) (advance : Bool) : (c.leave advance).Orderly :=
  ⟨h.sub, trivial⟩

theorem moved_leave (ho : c.Orderly) (hfit : t.Fit []) (advance : Bool) :
    c.Moved t (c.leave advance, t) :=
  .ofStage hfit (ho.leave advance)

theorem moved_attempt (ho : c.Orderly) (hfit : t.Fit []) (id : Nat) {q : LockRequest}
    {rest : LockPlan} {waits : Nat} (hstage : c.stage = .locking (q :: rest) waits) :
    c.Moved t (c.attempt id t q rest waits) := by
  obtain ⟨hplan, hcompared⟩ : c.held ++ q :: rest = c.plan ∧ c.compared = [] := by
    have h := ho.at_stage
    rwa [hstage] at h
  have hnew : q.place ∉ c.held.places := by
    have hnodup := nodup_places_plan c
    rw [← hplan, LockPlan.places, List.map_append, List.nodup_append] at hnodup
    intro hmem
    exact hnodup.2.2 q.place hmem q.place (by simp) rfl
  have hinv := LockTable.attempt_inv hfit q.place id q.kind c.discipline
  simp only [attempt]
  cases hx : t.attempt q.relation q.key id q.kind c.discipline with
  | mk answer t' =>
      rw [show t.attempt q.place.1 q.place.2 id q.kind c.discipline = (answer, t') from hx] at hinv
      cases hinv with
      | unknown f => exact moved_leave ho hfit false
      | granted _ hfit' hhold hcached hbeside =>
          have hplan' : c.held ++ [q] ++ rest = c.plan := by
            rw [List.append_assoc, List.singleton_append, hplan]
          have hsub : (c.held ++ [q]).Sublist c.plan := hplan' ▸ List.sublist_append_left _ _
          refine ⟨rfl, rfl, fun _ ho => ho, ⟨hsub, hplan', hcompared⟩, hfit', ?_⟩
          exact .took _ _ q hnew rfl hcompared hhold hbeside hcached
      | denied a ha _ hfit' hhold hcached =>
          have hmoved : ∀ stage, ({ c with stage } : Committer).Orderly →
              c.Moved t ({ c with stage }, t') := by
            intro stage hstage
            refine ⟨rfl, rfl, fun _ ho => ho, hstage, hfit', ?_⟩
            exact .aside _ _ rfl (fun _ ho => .inl ho) hhold fun p v hv => by rw [hcached, hv]
          cases a with
          | granted => exact absurd rfl ha
          | refused => exact hmoved _ ⟨ho.sub, trivial⟩
          | wait =>
              simp only
              split
              · exact hmoved _ ⟨ho.sub, hplan, hcompared⟩
              · exact hmoved _ ⟨ho.sub, trivial⟩

/-- A lock that is granted is held. -/
theorem holds_attempt (id : Nat) {q : LockRequest} (rest : LockPlan) (waits : Nat)
    (h : (t.attempt q.relation q.key id q.kind c.discipline).1 = .ok .granted) :
    (c.attempt id t q rest waits).1.Holds q.place q.kind := by
  simp only [attempt]
  cases hx : t.attempt q.relation q.key id q.kind c.discipline with
  | mk answer t' =>
      obtain rfl : answer = .ok .granted := by rwa [hx] at h
      exact (holds_of_concat (c := c) rfl).2 (.inr ⟨rfl, rfl⟩)

section Validating

variable {o : Obligation} {rest : List Obligation} {found : List Conflict}

/-- An obligation that saw nothing needs no comparison. -/
theorem Checks.skip (h : c.Checks (o :: rest) found) (ho : o.observed = none) :
    c.Checks rest found := by
  intro d hd
  rcases h d hd with hmem | hcompared
  · rcases List.mem_cons.1 hmem with rfl | hmem
    · right
      intro v hv
      rw [ho] at hv
      cases hv
    · exact .inl hmem
  · exact .inr hcompared

/-- An obligation is compared. -/
theorem Checks.compare (h : c.Checks (o :: rest) found) {observed : Nat}
    (hobserved : o.observed = some observed) (current : Option Nat) :
    (c.compare o observed rest found current).Checks rest
      (found ++ LockTable.staleness o observed current) := by
  intro d hd
  rcases h d hd with hmem | hcompared
  · rcases List.mem_cons.1 hmem with rfl | hmem
    · right
      intro v hv
      obtain rfl : observed = v := Option.some.inj (hobserved.symm.trans hv)
      refine ⟨current, List.mem_cons_self, fun hfound => ?_⟩
      have hstale : LockTable.staleness d observed current = [] :=
        (List.append_eq_nil_iff.1 hfound).2
      cases current with
      | none => exact .inl rfl
      | some w =>
          right
          simp only [LockTable.staleness] at hstale
          split at hstale
          · rename_i hw
            rw [hw]
          · cases hstale
    · exact .inl hmem
  · right
    intro v hv
    obtain ⟨w, hw, hnone⟩ := hcompared v hv
    exact ⟨w, List.mem_cons_of_mem _ hw, fun hfound => hnone (List.append_eq_nil_iff.1 hfound).1⟩

/-- An obligation is compared with the version that is known, or with none. -/
theorem moved_compare (ho : c.Orderly) (hfit : t.Fit []) (hheld : c.held = c.plan)
    (hchecks : c.Checks (o :: rest) found) {observed : Nat}
    (hobserved : o.observed = some observed) {current : Option Nat}
    (hcurrent : ∀ v, current = some v → t.cached? o.place = some v) :
    c.Moved t (c.compare o observed rest found current, t) := by
  refine ⟨rfl, rfl, fun _ he => List.mem_cons_of_mem _ he, ⟨ho.sub, hheld, ?_⟩, hfit,
    .aside _ _ rfl ?_ rfl fun _ _ hv => hv⟩
  · exact hchecks.compare hobserved current
  · rintro d ⟨hsome, hmem⟩
    rcases List.mem_cons.1 hmem with he | hmem
    · obtain ⟨v, hv⟩ := Option.isSome_iff_exists.1 hsome
      obtain ⟨rfl, rfl⟩ := Prod.mk.inj he
      right
      rw [hcurrent v hv, hv]
    · exact .inl ⟨hsome, hmem⟩

theorem moved_look (ho : c.Orderly) (hfit : t.Fit []) (hheld : c.held = c.plan)
    (hchecks : c.Checks (o :: rest) found) {observed : Nat}
    (hobserved : o.observed = some observed) {otherwise : Committer}
    (hotherwise : c.Moved t (otherwise, t)) :
    c.Moved t (c.look t o observed rest found otherwise, t) := by
  simp only [look]
  split
  · rename_i v hv
    apply moved_compare ho hfit hheld hchecks hobserved
    intro w hw
    rw [← hw]
    exact (LockTable.version?_eq_ok (p := o.place) hv).symm
  · exact hotherwise
  · exact moved_leave ho hfit false

theorem moved_check (ho : c.Orderly) (hfit : t.Fit []) {lookup : Lookup}
    (hstage : c.stage = .validating (o :: rest) found lookup) (move : CommitMove) :
    c.Moved t (c.check t o rest found lookup move) := by
  obtain ⟨hheld, hchecks⟩ : c.held = c.plan ∧ c.Checks (o :: rest) found := by
    have h := ho.at_stage
    rwa [hstage] at h
  have hstay : ∀ lookup, c.Moved t ({ c with stage := .validating (o :: rest) found lookup }, t) :=
    fun _ => .ofStage hfit ⟨ho.sub, hheld, hchecks⟩
  have hnone : ∀ observed, o.observed = some observed →
      c.Moved t (c.compare o observed rest found none, t) :=
    fun _ hobserved => moved_compare ho hfit hheld hchecks hobserved nofun
  simp only [check]
  split
  · rename_i hobserved
    exact .ofStage hfit ⟨ho.sub, hheld, hchecks.skip hobserved⟩
  · rename_i hobserved
    exact moved_look ho hfit hheld hchecks hobserved (hstay _)
  · rename_i version hobserved
    simp only [hear]
    split
    · exact hstay _
    · exact hnone _ hobserved
    · exact moved_leave ho hfit false
  · rename_i w hobserved
    obtain ⟨hfit', hhold, hcached⟩ := LockTable.observeVersion_eq hfit o.place w
    refine ⟨rfl, rfl, fun _ he => he, ⟨ho.sub, hheld, hchecks⟩, hfit', ?_⟩
    exact .aside _ _ rfl (fun _ hd => .inl hd) hhold hcached
  · rename_i hobserved
    exact moved_look ho hfit hheld hchecks hobserved (hnone _ hobserved)
  · exact .refl ho hfit

end Validating

theorem moved_giveBack (ho : c.Orderly) (hfit : t.Fit []) {advance : Bool}
    (hstage : c.stage = .releasing advance) : c.Moved t (c.giveBack t advance) := by
  simp only [giveBack]
  split
  · exact .ofStage hfit ⟨ho.sub, trivial⟩
  · rename_i q rest hheld
    have hsub : rest.Sublist c.plan := (List.sublist_cons_self q rest).trans (hheld ▸ ho.sub)
    have horderly : ({ c with held := rest } : Committer).Orderly :=
      ⟨hsub, by rw [hstage]; trivial⟩
    refine ⟨rfl, rfl, fun _ ho => ho, horderly, hfit.release q.place q.kind advance, ?_⟩
    exact .gaveBack _ q rest advance hstage hheld rfl rfl

/-- What any move comes to. -/
theorem moved_step (ho : c.Orderly) (hfit : t.Fit []) (id : Nat) (move : CommitMove) :
    c.Moved t (c.step id t move) := by
  have hself : c.Moved t (c, t) := .refl ho hfit
  have hstage := ho.at_stage
  cases hs : c.stage with
  | idle =>
      rw [hs] at hstage
      cases move with
      | next =>
          have hplan : c.held ++ c.plan = c.plan := by rw [hstage.1, List.nil_append]
          simp only [step, hs]
          exact .ofStage hfit ⟨ho.sub, hplan, hstage.2⟩
      | answer version => simpa only [step, hs] using hself
      | finish advance => simpa only [step, hs] using hself
  | locking rest waits =>
      rw [hs] at hstage
      cases move with
      | next =>
          cases rest with
          | nil =>
              have hplan : c.held = c.plan := (List.append_nil c.held).symm.trans hstage.1
              simp only [step, hs]
              exact .ofStage hfit ⟨ho.sub, hplan, fun _ hd => .inl hd⟩
          | cons q rest =>
              simp only [step, hs]
              exact moved_attempt ho hfit id hs
      | answer version => simpa only [step, hs] using hself
      | finish advance => simpa only [step, hs] using hself
  | withdrawing q =>
      cases move with
      | next =>
          simp only [step, hs]
          obtain ⟨hfit', hhold, hcached⟩ := LockTable.withdraw_eq hfit q.place id
          have hkept : ∀ p v, t.cached? p = some v →
              (t.withdraw q.relation q.key id).2.cached? p = some v :=
            fun p v hv => (congrFun hcached p).trans hv
          refine ⟨rfl, rfl, fun _ hd => hd, ho.leave false, hfit', ?_⟩
          exact .aside _ _ rfl (fun _ hd => .inl hd) hhold hkept
      | answer version => simpa only [step, hs] using hself
      | finish advance => simpa only [step, hs] using hself
  | validating rest found lookup =>
      cases rest with
      | nil =>
          cases move with
          | next =>
              simp only [step, hs]
              split
              · exact hself
              · exact moved_leave ho hfit false
          | answer version => simpa only [step, hs] using hself
          | finish advance => simpa only [step, hs] using moved_leave ho hfit advance
      | cons o rest =>
          cases move with
          | next => simpa only [step, hs] using moved_check ho hfit hs .next
          | answer version => simpa only [step, hs] using moved_check ho hfit hs (.answer version)
          | finish advance => simpa only [step, hs] using moved_leave ho hfit advance
  | releasing advance =>
      cases move with
      | next => simpa only [step, hs] using moved_giveBack ho hfit hs
      | answer version => simpa only [step, hs] using hself
      | finish advance => simpa only [step, hs] using hself
  | ended => simpa only [step, hs] using hself

end Committer

end LiveIsolation
