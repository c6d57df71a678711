import LiveIsolation.Proofs.Engine.Standing

/-!
# Who is awaited

A switch sees of its workers the marks at the barrier and the list of those that are stopped there.
Both agree with where the workers are (`Barrier.Musters`): a worker that is ready and has not
finished is stopped at its boundary, and nobody else is stopped. Once the switch has stopped
waiting for workers to be ready, it therefore waits for nobody but workers that it has let go on.

What a turn makes of the barrier is a case of `Engine.Alters`, so that all of this is preserved by
every turn.
-/

namespace LiveIsolation

namespace Barrier

variable {b c : Barrier} {id : Nat}

/-- The barrier agrees with where the workers are. -/
structure Musters (b : Barrier) (standing : Nat → Standing) : Prop where
  seats : ∀ id, (b.marks? id).isSome = true ↔ standing id ≠ .away
  sorted : Ordered.Sorted (fun a b : Nat => decide (a < b)) b.workers
  stopped : ∀ id, id ∈ b.stopped ↔ standing id = .atBoundary
  nodup : b.stopped.Nodup
  /-- Nobody is stopped outside a switch. -/
  stops : ∀ id, standing id = .atBoundary → b.phase ≠ .stable
  marks : b.phase ≠ .stable → ∀ id m, b.marks? id = some m →
    m ≠ ⟨false, true⟩ ∧ (m = ⟨true, false⟩ ↔ standing id = .atBoundary)
  ready : b.phase = .awaitingFinished → ∀ id m, b.marks? id = some m → m.ready = true

theorem musters_ofProtocol (p : Protocol) : (ofProtocol p).Musters fun _ => .away where
  seats _ := ⟨nofun, fun h => absurd rfl h⟩
  sorted := List.Pairwise.nil
  stopped _ := ⟨nofun, nofun⟩
  nodup := List.nodup_nil
  stops _ := nofun
  marks h := absurd rfl h
  ready := nofun

namespace Musters

variable {standing standing' : Nat → Standing}

/-- The marks, the phase and the list of the stopped workers are the same. -/
theorem congr (h : b.Musters standing) (hmarks : ∀ id, c.marks? id = b.marks? id)
    (hsorted : Ordered.Sorted (fun a b : Nat => decide (a < b)) c.workers)
    (hstopped : c.stopped = b.stopped) (hphase : c.phase = b.phase) : c.Musters standing where
  seats id := by
    rw [hmarks]
    exact h.seats id
  sorted := hsorted
  stopped id := by
    rw [hstopped]
    exact h.stopped id
  nodup := hstopped ▸ h.nodup
  stops id hid := hphase ▸ h.stops id hid
  marks hne id m hm := h.marks (hphase ▸ hne) id m (hmarks id ▸ hm)
  ready hp id m hm := h.ready (hphase ▸ hp) id m (hmarks id ▸ hm)

/-- A worker moves, and its marks change. -/
theorem set (h : b.Musters standing) {k : Option SwitchMarks} {s : Standing}
    (hmarks : ∀ i, c.marks? i = if i = id then k else b.marks? i) (hphase : c.phase = b.phase)
    (hsorted : Ordered.Sorted (fun a b : Nat => decide (a < b)) c.workers)
    (hstopped : ∀ i, i ∈ c.stopped ↔ if i = id then s = .atBoundary else i ∈ b.stopped)
    (hnodup : c.stopped.Nodup) (hseat : k.isSome = true ↔ s ≠ .away)
    (hstops : s = .atBoundary → b.phase ≠ .stable)
    (hself : b.phase ≠ .stable → ∀ m, k = some m →
      m ≠ ⟨false, true⟩ ∧ (m = ⟨true, false⟩ ↔ s = .atBoundary))
    (hready : b.phase = .awaitingFinished → ∀ m, k = some m → m.ready = true) :
    c.Musters (Function.update standing id s) where
  seats i := by
    rw [hmarks, Function.update_apply]
    split
    · exact hseat
    · exact h.seats i
  sorted := hsorted
  stopped i := by
    rw [hstopped, Function.update_apply]
    split
    · rfl
    · exact h.stopped i
  nodup := hnodup
  stops i hi := by
    rw [hphase]
    rw [Function.update_apply] at hi
    split at hi
    · exact hstops hi
    · exact h.stops i hi
  marks hne i m hm := by
    rw [hphase] at hne
    rw [hmarks] at hm
    rw [Function.update_apply]
    split
    · rename_i hi
      rw [if_pos hi] at hm
      exact hself hne m hm
    · rename_i hi
      rw [if_neg hi] at hm
      exact h.marks hne i m hm
  ready hp i m hm := by
    rw [hphase] at hp
    rw [hmarks] at hm
    split at hm
    · exact hready hp m hm
    · exact h.ready hp i m hm

/-- A worker that moves without being stopped leaves the list of the stopped workers right. -/
theorem stopped_iff (h : b.Musters standing) (hfrom : standing id ≠ .atBoundary) {s : Standing}
    (hto : s ≠ .atBoundary) (i : Nat) :
    i ∈ b.stopped ↔ if i = id then s = .atBoundary else i ∈ b.stopped := by
  split
  · rename_i hi
    have hout : id ∉ b.stopped := fun hmem => hfrom ((h.stopped id).1 hmem)
    simp [hi, hout, hto]
  · rfl

/-- A worker moves that is neither stopped nor away, before and afterwards. -/
theorem moves (h : b.Musters standing) {s : Standing} (hfrom : standing id ≠ .atBoundary)
    (hthere : standing id ≠ .away) (hto : s ≠ .atBoundary) (hstays : s ≠ .away) :
    b.Musters (Function.update standing id s) := by
  refine h.set (k := b.marks? id) ?_ rfl h.sorted (h.stopped_iff hfrom hto) h.nodup ?_ ?_ ?_ ?_
  · intro i
    split
    · rename_i hi
      rw [hi]
    · rfl
  · exact ⟨fun _ => hstays, fun _ => (h.seats id).2 hthere⟩
  · exact fun hs => absurd hs hto
  · intro hne m hm
    simpa [hfrom, hto] using h.marks hne id m hm
  · exact fun hp m hm => h.ready hp id m hm

/-- Once a switch no longer waits for workers to be ready, whoever is not stopped has finished. -/
theorem finished (h : b.Musters standing) (hphase : b.phase = .awaitingFinished)
    (hid : standing id ≠ .atBoundary) {m : SwitchMarks} (hm : b.marks? id = some m) :
    m = ⟨true, true⟩ := by
  have hready : m.ready = true := h.ready hphase id m hm
  have hstopped : m ≠ ⟨true, false⟩ := by
    intro he
    exact hid (((h.marks (by simp [hphase]) id m hm).2).1 he)
  obtain ⟨ready, finished⟩ := m
  cases finished with
  | true => rw [show ready = true from hready]
  | false => exact absurd (by rw [show ready = true from hready]) hstopped

/-- A worker that is stopped is ready and has not finished. -/
theorem marks_of_stopped (h : b.Musters standing) (hid : standing id = .atBoundary) :
    b.marks? id = some ⟨true, false⟩ := by
  have hseat : (b.marks? id).isSome = true := (h.seats id).2 (by simp [hid])
  obtain ⟨m, hm⟩ := Option.isSome_iff_exists.1 hseat
  rw [hm, ((h.marks (h.stops id hid) id m hm).2).2 hid]

/-- A worker comes to its boundary that was not stopped there. -/
theorem passes (h : b.Musters standing) (hid : standing id ≠ .atBoundary)
    (hthere : standing id ≠ .away) {s : Standing} (hpasses : b.Passes id c s) :
    c.Musters (Function.update standing id s) := by
  cases hpasses with
  | leaves required henter told _ hleave =>
      obtain ⟨m, hm, ⟨hphase, hunfinished, -, -⟩ | ⟨-, -, rfl⟩⟩ := leave_eq_ok hleave
      · rw [h.finished hphase hid hm] at hunfinished
        cases hunfinished
      · exact h.moves hid hthere (by simp) (by simp)
  | stops _ henter =>
      obtain ⟨m, hm, ⟨hphase, hunready, -, rfl⟩ | ⟨-, hnone, -⟩⟩ := enter_eq_ok henter
      · have hne : b.phase ≠ .stable := by simp [hphase]
        have hmarked : { m with ready := true } = (⟨true, false⟩ : SwitchMarks) := by
          have hwrong := (h.marks hne id m hm).1
          obtain ⟨ready, finished⟩ := m
          cases finished with
          | false => rfl
          | true => exact absurd (by rw [show ready = false from hunready]) hwrong
        have hout : id ∉ b.stopped := fun hmem => hid ((h.stopped id).1 hmem)
        rw [hmarked]
        refine h.set (marks?_mark b id · _) rfl (Ordered.sorted_insertWith _ h.sorted) ?_ ?_ ?_
          (fun _ => hne) ?_ ?_
        · intro i
          rw [List.mem_append, List.mem_singleton]
          split
          · rename_i hi
            simp [hi]
          · rename_i hi
            exact or_iff_left hi
        · rw [List.nodup_append]
          refine ⟨h.nodup, List.pairwise_singleton _ id, ?_⟩
          rintro i hi j hj rfl
          exact hout (List.mem_singleton.1 hj ▸ hi)
        · simp
        · simp
        · intro hfinished
          cases hphase.symm.trans hfinished
      · cases hnone

/-- A stopped worker goes on. -/
theorem resumes (h : b.Musters standing) (hstopped : id ∈ b.stopped)
    (hphase : b.phase ≠ .awaitingReady) {told : Option Protocol}
    (hleave : leave { b with stopped := b.stopped.erase id } id = .ok (told, c)) :
    c.Musters (Function.update standing id .free) := by
  have hid : standing id = .atBoundary := (h.stopped id).1 hstopped
  have hwaits : b.phase = .awaitingFinished := by
    cases hp : b.phase with
    | stable => exact absurd hp (h.stops id hid)
    | awaitingReady => exact absurd hp hphase
    | awaitingFinished => rfl
  obtain ⟨m, hm, hcases⟩ := leave_eq_ok hleave
  have hmarked : m = ⟨true, false⟩ := Option.some.inj (hm.symm.trans (h.marks_of_stopped hid))
  rcases hcases with ⟨-, -, -, rfl⟩ | ⟨hno, -, -⟩
  · rw [hmarked]
    refine h.set (marks?_mark _ id · _) rfl (Ordered.sorted_insertWith _ h.sorted) ?_
      (h.nodup.erase id) ?_ ?_ ?_ ?_
    · intro i
      refine h.nodup.mem_erase_iff.trans ?_
      split
      · rename_i hi
        simp [hi]
      · rename_i hi
        exact and_iff_right hi
    · simp
    · simp
    · simp
    · simp
  · refine absurd ⟨hwaits, ?_⟩ hno
    rw [hmarked]

/-- Whoever can be registered is away. -/
theorem away_of_register (h : b.Musters standing) {start : Protocol}
    (hregister : b.register id = .ok (start, c)) : standing id = .away := by
  by_contra hthere
  rw [register, if_pos ((h.seats id).2 hthere)] at hregister
  cases hregister

/-- A worker joins, and is marked as one that takes no part in the switch. -/
theorem joins (h : b.Musters standing) {start : Protocol}
    (hregister : b.register id = .ok (start, c)) :
    c.Musters (Function.update standing id .free) := by
  have haway := h.away_of_register hregister
  have hjoined : ∀ m : SwitchMarks, (b.phase ≠ .stable → m = ⟨true, true⟩) →
      (b.mark id m).Musters (Function.update standing id .free) := by
    intro m hmark
    refine h.set (marks?_mark b id · m) rfl (Ordered.sorted_insertWith _ h.sorted)
      (h.stopped_iff (by simp [haway]) (by simp)) h.nodup ?_ ?_ ?_ ?_
    · simp
    · simp
    · intro hne k hk
      simp [← Option.some.inj hk, hmark hne]
    · intro hphase k hk
      rw [← Option.some.inj hk, hmark (by simp [hphase])]
  rcases register_eq_ok hregister with ⟨hphase, -, rfl⟩ | ⟨-, -, rfl⟩
  · exact hjoined _ fun hne => absurd hphase hne
  · exact hjoined _ fun _ => rfl

/-- A worker that is not stopped leaves for good. -/
theorem closes (h : b.Musters standing) (hid : standing id ≠ .atBoundary) :
    (b.deregister id).Musters (Function.update standing id .away) := by
  refine h.set (marks?_deregister b id) rfl (h.sorted.filter _)
    (h.stopped_iff hid (by simp)) h.nodup ?_ ?_ ?_ ?_
  · simp
  · simp
  · simp
  · simp

/-- All marks are cleared while nobody is stopped. -/
theorem cleared (h : b.Musters standing) (hnobody : ∀ id, standing id ≠ .atBoundary)
    {phase : SwitchPhase} (hphase : phase ≠ .awaitingFinished) (current next : Protocol)
    (queue : List Protocol) (switches noopRequests : Nat) :
    Musters { b.clearMarks with phase, current, next, queue, switches, noopRequests }
      standing where
  seats id := by
    refine Iff.trans ?_ (h.seats id)
    change (b.clearMarks.marks? id).isSome = true ↔ _
    rw [marks?_clearMarks, Option.isSome_map]
  sorted := List.pairwise_map.2 h.sorted
  stopped := h.stopped
  nodup := h.nodup
  stops id hid := absurd hid (hnobody id)
  marks _ id m hm := by
    change b.clearMarks.marks? id = some m at hm
    rw [marks?_clearMarks] at hm
    obtain ⟨k, -, rfl⟩ := Option.map_eq_some_iff.1 hm
    simp [hnobody id]
  ready hp := absurd hp hphase

theorem begins (h : b.Musters standing) {report : Option SwitchReport}
    (hbegin : b.begin? = some (report, c)) : c.Musters standing := by
  obtain ⟨hphase, target, queue, -, ⟨-, -, rfl⟩ | ⟨-, -, rfl⟩⟩ := begin?_eq_some hbegin
  · exact h.congr (fun _ => rfl) h.sorted rfl rfl
  · have hnobody : ∀ id, standing id ≠ .atBoundary := fun id hid => h.stops id hid hphase
    exact h.cleared hnobody (by simp) _ _ _ _ _

theorem advances (h : b.Musters standing) {report : Option SwitchReport}
    (hadvance : b.advance? = some (report, c)) : c.Musters standing := by
  rcases advance?_eq_some hadvance with ⟨hphase, hall, rfl⟩ | ⟨hphase, hall, rfl⟩
  · have hne : b.phase ≠ .stable := by simp [hphase]
    exact ⟨h.seats, h.sorted, h.stopped, h.nodup, fun _ _ => nofun, fun _ => h.marks hne,
      fun _ _ _ hm => ready_of_allReady hall hm⟩
  · have hnobody : ∀ id, standing id ≠ .atBoundary := by
      intro id hid
      cases finished_of_allFinished hall (h.marks_of_stopped hid)
    exact h.cleared hnobody (by simp) _ _ _ _ _

end Musters

end Barrier

namespace Engine

variable {e : Engine}

/-- The barrier agrees with where the workers are after a turn if it did so before. -/
theorem Alters.musters {turn : Turn} {b : Barrier} {standing : Nat → Standing}
    (h : e.Alters turn b standing) (hm : e.barrier.Musters e.standing) : b.Musters standing := by
  have hmoving : ∀ id, e.standing id = .free ∨ e.standing id = .atGate →
      e.standing id ≠ .atBoundary ∧ e.standing id ≠ .away := by
    rintro id (hid | hid)
    · simp [hid]
    · simp [hid]
  cases h with
  | aside _ _ _ => exact hm
  | held _ id hfrom _ _ =>
      obtain ⟨hboundary, haway⟩ := hmoving id hfrom
      exact hm.moves hboundary haway (by simp) (by simp)
  | passes _ id hfrom _ _ _ s hpasses =>
      obtain ⟨hboundary, haway⟩ := hmoving id hfrom
      exact hm.passes hboundary haway hpasses
  | resumes id hstopped hphase told _ hleave => exact hm.resumes hstopped hphase hleave
  | joins _ id _ _ start _ hregister => exact hm.joins hregister
  | turnedAway _ id _ _ start c hregister =>
      have hleft := (hm.joins hregister).closes (by rw [Function.update_self]; nofun)
      rwa [Function.update_idem, ← hm.away_of_register hregister, Function.update_eq_self] at hleft
  | closes id hfree => exact hm.closes (by simp [hfree])
  | requests target => exact hm.congr (fun _ => rfl) hm.sorted rfl rfl
  | begins report _ hbegin => exact hm.begins hbegin
  | advances report _ hadvance => exact hm.advances hadvance

/-- Every connected worker has its seat, and the barrier agrees with where the workers are. -/
structure Mustered (e : Engine) : Prop where
  seated : e.Seated
  musters : e.barrier.Musters e.standing

theorem Mustered.alters (h : e.Mustered) (turn : Turn) :
    e.Alters turn (e.turn turn).2.barrier (e.turn turn).2.standing :=
  h.seated.alters (fun id hid => (h.musters.stopped id).1 hid) turn

theorem Mustered.turn (h : e.Mustered) (turn : Turn) : (e.turn turn).2.Mustered :=
  ⟨h.seated.turn turn, (h.alters turn).musters h.musters⟩

theorem Mustered.through (h : e.Mustered) (turns : List Turn) : (e.through turns).Mustered :=
  through_induction (fun turn _ _ h => h.turn turn) h

theorem mustered_create {workload : Workload} {config : EngineConfig} {keys : KeyRule}
    (h : create workload config keys = .ok e) : e.Mustered := by
  refine ⟨seated_create h, ?_⟩
  obtain ⟨protocol, locks, -, -, rfl⟩ := create_eq_ok h
  exact Barrier.musters_ofProtocol protocol

end Engine

end LiveIsolation
