import LiveIsolation.Proofs.Barrier.History

/-!
# Safety of the switch barrier

Whatever order the steps at the barrier come in, a switch goes on only when it may. It stops
waiting for workers to be ready when each of them has come to its boundary since the request
began or has joined since then, and it ends when each worker that was there before has been
told the new protocol exactly once. The protocol in force and the next one stay as they are
while the switch goes on, and no marks are left when it has ended.

The marks of a worker are forgotten with every switch, so the invariant (`Faithful`) ties them
to the history: what a worker has done since the request is what its marks say.
-/

namespace LiveIsolation

namespace Barrier

variable {b c : Barrier} {w : Nat}

theorem register_eq_ok {start : Protocol} (h : b.register w = .ok (start, c)) :
    (b.phase = .stable ∧ start = b.current ∧ c = b.mark w {}) ∨
      (b.phase ≠ .stable ∧ start = b.next ∧ c = b.mark w ⟨true, true⟩) := by
  simp only [register] at h
  split at h
  · simp at h
  · split at h
    · rename_i hp
      simp only [Except.ok.injEq, Prod.mk.injEq] at h
      exact .inl ⟨hp, h.1.symm, h.2.symm⟩
    · rename_i hp
      simp only [Except.ok.injEq, Prod.mk.injEq] at h
      exact .inr ⟨hp, h.1.symm, h.2.symm⟩

theorem enter_eq_ok {required : Option Protocol} (h : b.enter w = .ok (required, c)) :
    ∃ m, b.marks? w = some m ∧
      ((b.phase = .awaitingReady ∧ m.ready = false ∧ required = none ∧
          c = { b.mark w { m with ready := true } with stopped := b.stopped ++ [w] }) ∨
        (¬(b.phase = .awaitingReady ∧ m.ready = false) ∧ required = some b.required ∧ c = b)) := by
  simp only [enter] at h
  split at h
  · simp at h
  · rename_i m hm
    refine ⟨m, hm, ?_⟩
    split at h
    · rename_i hp
      simp only [Except.ok.injEq, Prod.mk.injEq] at h
      exact .inl ⟨hp.1, hp.2, h.1.symm, h.2.symm⟩
    · rename_i hp
      simp only [Except.ok.injEq, Prod.mk.injEq] at h
      exact .inr ⟨hp, h.1.symm, h.2.symm⟩

theorem leave_eq_ok {told : Option Protocol} (h : b.leave w = .ok (told, c)) :
    ∃ m, b.marks? w = some m ∧
      ((b.phase = .awaitingFinished ∧ m.finished = false ∧ told = some b.next ∧
          c = b.mark w { m with finished := true }) ∨
        (¬(b.phase = .awaitingFinished ∧ m.finished = false) ∧ told = none ∧ c = b)) := by
  simp only [leave] at h
  split at h
  · simp at h
  · rename_i m hm
    refine ⟨m, hm, ?_⟩
    split at h
    · rename_i hp
      simp only [Except.ok.injEq, Prod.mk.injEq] at h
      exact .inl ⟨hp.1, hp.2, h.1.symm, h.2.symm⟩
    · rename_i hp
      simp only [Except.ok.injEq, Prod.mk.injEq] at h
      exact .inr ⟨hp, h.1.symm, h.2.symm⟩

/-- Only a worker that does not take part is missed at its boundary. -/
theorem cls_of_enter {f : Fault} (h : b.enter w = .error f) : f.cls = .invalidState := by
  simp only [enter] at h
  split at h
  · rw [← Except.error.inj h]
    rfl
  · split at h
    · cases h
    · cases h

theorem cls_of_leave {f : Fault} (h : b.leave w = .error f) : f.cls = .invalidState := by
  simp only [leave] at h
  split at h
  · rw [← Except.error.inj h]
    rfl
  · split at h
    · cases h
    · cases h

theorem begin?_eq_some {report : Option SwitchReport} (h : b.begin? = some (report, c)) :
    b.phase = .stable ∧ ∃ target queue, b.queue = target :: queue ∧
      ((b.current = target ∧ report.isSome ∧
          c = { b with queue, noopRequests := b.noopRequests + 1 }) ∨
        (b.current ≠ target ∧ report = none ∧
          c = { b.clearMarks with phase := .awaitingReady, next := target, queue })) := by
  simp only [begin?] at h
  split at h
  · rename_i target queue hp hq
    refine ⟨hp, target, queue, hq, ?_⟩
    split at h
    · rename_i ht
      simp only [Option.some.injEq, Prod.mk.injEq] at h
      exact .inl ⟨ht, by rw [← h.1]; rfl, h.2.symm⟩
    · rename_i ht
      simp only [Option.some.injEq, Prod.mk.injEq] at h
      exact .inr ⟨ht, h.1.symm, h.2.symm⟩
  · simp at h

theorem advance?_eq_some {report : Option SwitchReport} (h : b.advance? = some (report, c)) :
    (b.phase = .awaitingReady ∧ b.allReady = true ∧ c = { b with phase := .awaitingFinished }) ∨
      (b.phase = .awaitingFinished ∧ b.allFinished = true ∧
        c = { b.clearMarks with
          phase := .stable, current := b.next, switches := b.switches + 1 }) := by
  simp only [advance?] at h
  split at h
  · rename_i hp
    split at h
    · rename_i ha
      simp only [Option.some.injEq, Prod.mk.injEq] at h
      exact .inl ⟨hp, ha, h.2.symm⟩
    · simp at h
  · rename_i hp
    split at h
    · rename_i ha
      simp only [Option.some.injEq, Prod.mk.injEq] at h
      exact .inr ⟨hp, ha, h.2.symm⟩
    · simp at h
  · simp at h

theorem phase_register {start : Protocol} (h : b.register w = .ok (start, c)) :
    c.phase = b.phase := by
  rcases register_eq_ok h with ⟨-, -, rfl⟩ | ⟨-, -, rfl⟩
  · rfl
  · rfl

theorem phase_enter {required : Option Protocol} (h : b.enter w = .ok (required, c)) :
    c.phase = b.phase := by
  obtain ⟨m, -, ⟨-, -, -, rfl⟩ | ⟨-, -, rfl⟩⟩ := enter_eq_ok h
  · rfl
  · rfl

theorem phase_leave {told : Option Protocol} (h : b.leave w = .ok (told, c)) :
    c.phase = b.phase := by
  obtain ⟨m, -, ⟨-, -, -, rfl⟩ | ⟨-, -, rfl⟩⟩ := leave_eq_ok h
  · rfl
  · rfl

/-- A worker that leaves its boundary does not look at who else is stopped. -/
theorem leave_stopped (b : Barrier) (ids : List Nat) (w : Nat) :
    leave { b with stopped := ids } w =
      (b.leave w).map fun r => (r.1, { r.2 with stopped := ids }) := by
  have hmarks : marks? { b with stopped := ids } w = b.marks? w := rfl
  simp only [leave]
  rw [hmarks]
  cases b.marks? w with
  | none => rfl
  | some m =>
      by_cases h : b.phase = .awaitingFinished ∧ m.finished = false
      · simp only [if_pos h]
        rfl
      · simp only [if_neg h]
        rfl

/-- A barrier has kept its protocols and its queue. -/
structure Keeps (b c : Barrier) : Prop where
  current : c.current = b.current
  next : c.next = b.next
  queue : c.queue = b.queue

theorem Keeps.refl (b : Barrier) : b.Keeps b := ⟨rfl, rfl, rfl⟩

theorem keeps_register {start : Protocol} (h : b.register w = .ok (start, c)) : b.Keeps c := by
  rcases register_eq_ok h with ⟨-, -, rfl⟩ | ⟨-, -, rfl⟩
  · exact ⟨rfl, rfl, rfl⟩
  · exact ⟨rfl, rfl, rfl⟩

theorem keeps_enter {required : Option Protocol} (h : b.enter w = .ok (required, c)) :
    b.Keeps c := by
  obtain ⟨m, -, ⟨-, -, -, rfl⟩ | ⟨-, -, rfl⟩⟩ := enter_eq_ok h
  · exact ⟨rfl, rfl, rfl⟩
  · exact .refl c

theorem keeps_leave {told : Option Protocol} (h : b.leave w = .ok (told, c)) : b.Keeps c := by
  obtain ⟨m, -, ⟨-, -, -, rfl⟩ | ⟨-, -, rfl⟩⟩ := leave_eq_ok h
  · exact ⟨rfl, rfl, rfl⟩
  · exact .refl c

/-- All protocols of a barrier validate commits, those that are asked for too. -/
structure Validates (b : Barrier) : Prop where
  current : b.current ≠ .serializable
  next : b.next ≠ .serializable
  queue : .serializable ∉ b.queue

theorem validates_ofProtocol {p : Protocol} (h : p ≠ .serializable) : (ofProtocol p).Validates :=
  ⟨h, h, List.not_mem_nil⟩

theorem Validates.keeps (h : b.Validates) (hk : b.Keeps c) : c.Validates where
  current := by
    rw [hk.current]
    exact h.current
  next := by
    rw [hk.next]
    exact h.next
  queue := by
    rw [hk.queue]
    exact h.queue

theorem Validates.request (h : b.Validates) {target : Protocol} (ht : target ≠ .serializable) :
    (b.request target).Validates where
  current := h.current
  next := h.next
  queue hmem := by
    rcases List.mem_append.1 hmem with hmem | hmem
    · exact h.queue hmem
    · exact ht (List.mem_singleton.1 hmem).symm

theorem Validates.begin? {report : Option SwitchReport} (h : b.Validates)
    (hb : b.begin? = some (report, c)) : c.Validates := by
  obtain ⟨-, target, queue, hqueue, hcases⟩ := begin?_eq_some hb
  have hlater : ∀ p ∈ target :: queue, p ≠ .serializable := by
    intro p hp hser
    exact h.queue (hser ▸ hqueue ▸ hp)
  have hrest : .serializable ∉ queue := fun hmem => hlater _ (List.mem_cons_of_mem _ hmem) rfl
  rcases hcases with ⟨-, -, rfl⟩ | ⟨-, -, rfl⟩
  · exact ⟨h.current, h.next, hrest⟩
  · exact ⟨h.current, hlater target List.mem_cons_self, hrest⟩

theorem Validates.advance? {report : Option SwitchReport} (h : b.Validates)
    (hb : b.advance? = some (report, c)) : c.Validates := by
  rcases advance?_eq_some hb with ⟨-, -, rfl⟩ | ⟨-, -, rfl⟩
  · exact ⟨h.current, h.next, h.queue⟩
  · exact ⟨h.next, h.next, h.queue⟩

/-- Commits then always follow a discipline. -/
theorem Validates.discipline? (h : b.Validates) : ∃ d, b.required.discipline? = some d := by
  have hsafe : ∀ p q : Protocol, p ≠ .serializable → q ≠ .serializable →
      ∃ d, (p.safeTransition q).discipline? = some d := by
    intro p q hp hq
    cases p <;> cases q <;> first | exact absurd rfl hp | exact absurd rfl hq | exact ⟨_, rfl⟩
  simp only [required]
  split
  · have hsame := hsafe b.current b.current h.current h.current
    rwa [Protocol.safeTransition_self] at hsame
  · exact hsafe b.current b.next h.current h.next

theorem ready_of_allReady {m : SwitchMarks} (h : b.allReady = true) (hm : b.marks? w = some m) :
    m.ready = true :=
  List.all_eq_true.1 h _ (Ordered.mem_of_lookup hm)

theorem finished_of_allFinished {m : SwitchMarks} (h : b.allFinished = true)
    (hm : b.marks? w = some m) : m.finished = true :=
  List.all_eq_true.1 h _ (Ordered.mem_of_lookup hm)

end Barrier

namespace BarrierHistory

/-- What the history says about the marks of a worker while a switch to `target` goes on. A
worker that was there before has been told the target once it has finished; one that has
joined since counts as ready and finished from the start. -/
def Tells (past : BarrierHistory) (target : Protocol) (w : Nat) (m : SwitchMarks) : Prop :=
  match past.sinceRequest.start? w with
  | none =>
    (m.ready = true → .entered w ∈ past.sinceRequest) ∧
      past.sinceRequest.told w = if m.finished then [target] else []
  | some start => m = ⟨true, true⟩ ∧ start = target ∧ (past.sinceJoined w).told w = []

namespace Tells

variable {past : BarrierHistory} {target : Protocol} {w : Nat} {m : SwitchMarks}

/-- A record that is not about a worker changes nothing for it. -/
theorem cons {r : BarrierRecord} (h : Tells past target w m) (hrequest : r.request? = none)
    (hstart : r.startOf? w = none) (htold : r.toldTo? w = none) :
    Tells (r :: past) target w m := by
  simp only [Tells] at h ⊢
  rw [sinceRequest_cons, hrequest, Option.isNone_none, if_pos rfl, start?_cons, hstart,
    Option.none_or]
  cases hs : past.sinceRequest.start? w with
  | none =>
      rw [hs] at h
      refine ⟨fun hm => List.mem_cons_of_mem _ (h.1 hm), ?_⟩
      rw [told_cons, htold]
      exact h.2
  | some start =>
      rw [hs] at h
      refine ⟨h.1, h.2.1, ?_⟩
      rw [sinceJoined_cons, hstart, Option.isNone_none, if_pos rfl, told_cons, htold]
      exact h.2.2

theorem entered (h : Tells past target w m) :
    Tells (.entered w :: past) target w { m with ready := true } := by
  have hcons := h.cons (r := .entered w) rfl rfl rfl
  simp only [Tells] at hcons ⊢
  have hsince : sinceRequest (.entered w :: past) = .entered w :: past.sinceRequest :=
    sinceRequest_cons past (.entered w)
  rw [hsince] at hcons ⊢
  cases hs : BarrierHistory.start? (.entered w :: past.sinceRequest) w with
  | none =>
      rw [hs] at hcons
      exact ⟨fun _ => List.mem_cons_self, hcons.2⟩
  | some start =>
      rw [hs] at hcons
      exact ⟨by rw [hcons.1], hcons.2⟩

/-- A worker that is told the target as it finishes has not been told it before. -/
theorem left (h : Tells past target w m) (hm : m.finished = false) :
    Tells (.left w (some target) :: past) target w { m with finished := true } := by
  simp only [Tells] at h ⊢
  have hsince : sinceRequest (.left w (some target) :: past) =
      .left w (some target) :: past.sinceRequest := sinceRequest_cons past (.left w (some target))
  have hstart : BarrierHistory.start? (.left w (some target) :: past.sinceRequest) w =
      past.sinceRequest.start? w := start?_cons past.sinceRequest w (.left w (some target))
  rw [hsince, hstart]
  cases hs : past.sinceRequest.start? w with
  | none =>
      rw [hs] at h
      refine ⟨fun hr => List.mem_cons_of_mem _ (h.1 hr), ?_⟩
      rw [told_cons, h.2, hm]
      simp [BarrierRecord.toldTo?]
  | some start =>
      rw [hs] at h
      exact absurd hm (by rw [h.1]; simp)

theorem registered : Tells (.registered w target :: past) target w ⟨true, true⟩ := by
  simp only [Tells]
  have hsince : sinceRequest (.registered w target :: past) =
      .registered w target :: past.sinceRequest := sinceRequest_cons past (.registered w target)
  have hjoined : BarrierHistory.sinceJoined (.registered w target :: past) w = [] := by
    simp [sinceJoined_cons, BarrierRecord.startOf?]
  rw [hsince, start?_cons, hjoined]
  simp [BarrierRecord.startOf?]

/-- When a request begins, nothing has happened since then. -/
theorem began (source : Protocol) : Tells (.began source target :: past) target w {} := by
  have hsince : sinceRequest (.began source target :: past) = [] :=
    sinceRequest_cons past (.began source target)
  simp only [Tells]
  rw [hsince]
  simp

end Tells

end BarrierHistory

namespace BarrierCourse

/-- What the barrier holds is what the history says. -/
structure Faithful (c : BarrierCourse) : Prop where
  quiet : c.barrier.phase = .stable →
    (∀ e ∈ c.barrier.workers, e.2 = {}) ∧ c.barrier.current = c.barrier.next
  request : c.barrier.phase ≠ .stable →
    c.past.lastRequest? = some (c.barrier.current, c.barrier.next)
  marks : c.barrier.phase ≠ .stable → ∀ w m, c.barrier.marks? w = some m →
    c.past.Tells c.barrier.next w m

variable {c : BarrierCourse}

/-- A new barrier has no history. -/
theorem faithful_ofProtocol (initial : Protocol) :
    Faithful { barrier := .ofProtocol initial } where
  quiet _ := ⟨by simp [Barrier.ofProtocol], rfl⟩
  request h := absurd rfl h
  marks h := absurd rfl h

/-- A step that leaves a record about one worker only, while the phase and the protocols
stay. -/
theorem Faithful.record {b : Barrier} {r : BarrierRecord} {w : Nat} (h : c.Faithful)
    (hphase : b.phase = c.barrier.phase) (hcurrent : b.current = c.barrier.current)
    (hnext : b.next = c.barrier.next) (hrequest : r.request? = none)
    (hothers : ∀ v, v ≠ w →
      r.startOf? v = none ∧ r.toldTo? v = none ∧ b.marks? v = c.barrier.marks? v)
    (hquiet : c.barrier.phase = .stable → ∀ e ∈ b.workers, e.2 = {})
    (hself : c.barrier.phase ≠ .stable → ∀ m, b.marks? w = some m →
      BarrierHistory.Tells (r :: c.past) c.barrier.next w m) :
    Faithful ⟨r :: c.past, b⟩ where
  quiet hp := by
    rw [hphase] at hp
    exact ⟨hquiet hp, by rw [hcurrent, hnext]; exact (h.quiet hp).2⟩
  request hp := by
    rw [hphase] at hp
    change BarrierHistory.lastRequest? (r :: c.past) = some (b.current, b.next)
    rw [BarrierHistory.lastRequest?_cons, hrequest, Option.none_or, hcurrent, hnext]
    exact h.request hp
  marks hp v m hv := by
    rw [hphase] at hp
    change BarrierHistory.Tells (r :: c.past) b.next v m
    rw [hnext]
    by_cases hvw : v = w
    · subst hvw
      exact hself hp m hv
    · obtain ⟨hstart, htold, hmarks⟩ := hothers v hvw
      exact (h.marks hp v m (hmarks ▸ hv)).cons hrequest hstart htold

/-- A step that leaves no record, while the phase, the protocols and the marks stay. -/
theorem Faithful.silent {b : Barrier} (h : c.Faithful) (hphase : b.phase = c.barrier.phase)
    (hcurrent : b.current = c.barrier.current) (hnext : b.next = c.barrier.next)
    (hworkers : ∀ e ∈ b.workers, e ∈ c.barrier.workers)
    (hmarks : ∀ v m, b.marks? v = some m → c.barrier.marks? v = some m) :
    Faithful ⟨c.past, b⟩ where
  quiet hp := by
    rw [hphase] at hp
    refine ⟨fun e he => (h.quiet hp).1 e (hworkers e he), ?_⟩
    rw [hcurrent, hnext]
    exact (h.quiet hp).2
  request hp := by
    rw [hphase] at hp
    change c.past.lastRequest? = some (b.current, b.next)
    rw [hcurrent, hnext]
    exact h.request hp
  marks hp v m hv := by
    rw [hphase] at hp
    change c.past.Tells b.next v m
    rw [hnext]
    exact h.marks hp v m (hmarks v m hv)

theorem Faithful.register (h : c.Faithful) (w : Nat) : (c.take (.register w)).Faithful := by
  cases hr : c.barrier.register w with
  | error f =>
      have htake : c.take (.register w) = c := by simp [BarrierCourse.take, Barrier.take, hr]
      rwa [htake]
  | ok r =>
      obtain ⟨start, b⟩ := r
      have htake : c.take (.register w) = ⟨.registered w start :: c.past, b⟩ := by
        simp [BarrierCourse.take, Barrier.take, hr]
      rw [htake]
      have hothers : ∀ m, ∀ v, v ≠ w →
          (BarrierRecord.registered w start).startOf? v = none ∧
            (BarrierRecord.registered w start).toldTo? v = none ∧
            (c.barrier.mark w m).marks? v = c.barrier.marks? v := by
        intro m v hv
        simp [BarrierRecord.startOf?, BarrierRecord.toldTo?, hv, Ne.symm hv]
      rcases Barrier.register_eq_ok hr with ⟨hp, rfl, rfl⟩ | ⟨hp, rfl, rfl⟩
      · refine h.record (w := w) rfl rfl rfl rfl (hothers _) ?_ (absurd hp)
        intro _ e he
        rcases Ordered.mem_insertWith_new _ he with rfl | he
        · rfl
        · exact (h.quiet hp).1 e he
      · refine h.record (w := w) rfl rfl rfl rfl (hothers _) (fun hq => absurd hq hp) ?_
        intro _ m hm
        rw [Barrier.marks?_mark, if_pos rfl, Option.some.injEq] at hm
        exact hm ▸ .registered

theorem Faithful.deregister (h : c.Faithful) (w : Nat) : (c.take (.deregister w)).Faithful := by
  refine h.silent rfl rfl rfl ?_ ?_
  · intro e he
    exact List.mem_of_mem_filter he
  · intro v m hv
    change (c.barrier.deregister w).marks? v = some m at hv
    rw [Barrier.marks?_deregister] at hv
    split at hv
    · simp at hv
    · exact hv

theorem Faithful.enter (h : c.Faithful) (w : Nat) : (c.take (.enter w)).Faithful := by
  cases hr : c.barrier.enter w with
  | error f =>
      have htake : c.take (.enter w) = c := by simp [BarrierCourse.take, Barrier.take, hr]
      rwa [htake]
  | ok r =>
      obtain ⟨required, b⟩ := r
      have htake : c.take (.enter w) = ⟨.entered w :: c.past, b⟩ := by
        simp [BarrierCourse.take, Barrier.take, hr]
      rw [htake]
      obtain ⟨m, hm, ⟨hp, -, -, rfl⟩ | ⟨-, -, rfl⟩⟩ := Barrier.enter_eq_ok hr
      · have hne : c.barrier.phase ≠ .stable := by simp [hp]
        refine h.record (w := w) rfl rfl rfl rfl ?_ (fun hq => absurd hq hne) ?_
        · intro v hv
          refine ⟨rfl, rfl, ?_⟩
          change (c.barrier.mark w _).marks? v = _
          rw [Barrier.marks?_mark, if_neg hv]
        · intro _ n hn
          change (c.barrier.mark w _).marks? w = some n at hn
          rw [Barrier.marks?_mark, if_pos rfl, Option.some.injEq] at hn
          exact hn ▸ (h.marks hne w m hm).entered
      · refine h.record (w := w) rfl rfl rfl rfl (fun _ _ => ⟨rfl, rfl, rfl⟩)
          (fun hq => (h.quiet hq).1) ?_
        intro hq n hn
        exact (h.marks hq w n hn).cons rfl rfl rfl

theorem Faithful.leave (h : c.Faithful) (w : Nat) : (c.take (.leave w)).Faithful := by
  cases hr : c.barrier.leave w with
  | error f =>
      have htake : c.take (.leave w) = c := by simp [BarrierCourse.take, Barrier.take, hr]
      rwa [htake]
  | ok r =>
      obtain ⟨told, b⟩ := r
      have htake : c.take (.leave w) = ⟨.left w told :: c.past, b⟩ := by
        simp [BarrierCourse.take, Barrier.take, hr]
      rw [htake]
      have htold : ∀ v, v ≠ w → (BarrierRecord.left w told).toldTo? v = none := by
        intro v hv
        simp [BarrierRecord.toldTo?, Ne.symm hv]
      obtain ⟨m, hm, ⟨hp, hf, rfl, rfl⟩ | ⟨-, rfl, rfl⟩⟩ := Barrier.leave_eq_ok hr
      · have hne : c.barrier.phase ≠ .stable := by simp [hp]
        refine h.record (w := w) rfl rfl rfl rfl ?_ (fun hq => absurd hq hne) ?_
        · intro v hv
          refine ⟨rfl, htold v hv, ?_⟩
          rw [Barrier.marks?_mark, if_neg hv]
        · intro _ n hn
          rw [Barrier.marks?_mark, if_pos rfl, Option.some.injEq] at hn
          exact hn ▸ (h.marks hne w m hm).left hf
      · refine h.record (w := w) rfl rfl rfl rfl (fun v hv => ⟨rfl, htold v hv, rfl⟩)
          (fun hq => (h.quiet hq).1) ?_
        intro hq n hn
        exact (h.marks hq w n hn).cons rfl rfl (by simp [BarrierRecord.toldTo?])

theorem Faithful.beginRequest (h : c.Faithful) : (c.take .beginRequest).Faithful := by
  cases hr : c.barrier.begin? with
  | none =>
      have htake : c.take .beginRequest = c := by simp [BarrierCourse.take, Barrier.take, hr]
      rwa [htake]
  | some r =>
      obtain ⟨report, b⟩ := r
      obtain ⟨hp, target, queue, -, hcases⟩ := Barrier.begin?_eq_some hr
      cases report with
      | some report =>
          have htake : c.take .beginRequest = ⟨c.past, b⟩ := by
            simp [BarrierCourse.take, Barrier.take, hr]
          rw [htake]
          rcases hcases with ⟨-, -, rfl⟩ | ⟨-, hnone, -⟩
          · exact h.silent rfl rfl rfl (fun _ he => he) (fun _ _ hv => hv)
          · simp at hnone
      | none =>
          have htake : c.take .beginRequest =
              ⟨.began c.barrier.current b.next :: c.past, b⟩ := by
            simp [BarrierCourse.take, Barrier.take, hr]
          rw [htake]
          rcases hcases with ⟨-, hsome, -⟩ | ⟨-, -, rfl⟩
          · simp at hsome
          · refine ⟨fun hq => absurd hq (by simp), fun _ => rfl, ?_⟩
            intro _ v m hv
            change c.barrier.clearMarks.marks? v = some m at hv
            rw [Barrier.marks?_clearMarks, Option.map_eq_some_iff] at hv
            obtain ⟨-, -, rfl⟩ := hv
            exact .began c.barrier.current

theorem Faithful.advance (h : c.Faithful) : (c.take .advance).Faithful := by
  cases hr : c.barrier.advance? with
  | none =>
      have htake : c.take .advance = c := by simp [BarrierCourse.take, Barrier.take, hr]
      rwa [htake]
  | some r =>
      obtain ⟨report, b⟩ := r
      have htake : c.take .advance = ⟨c.past, b⟩ := by
        simp [BarrierCourse.take, Barrier.take, hr]
      rw [htake]
      rcases Barrier.advance?_eq_some hr with ⟨hp, -, rfl⟩ | ⟨hp, -, rfl⟩
      · have hne : c.barrier.phase ≠ .stable := by simp [hp]
        exact ⟨fun hq => absurd hq (by simp), fun _ => h.request hne, fun _ => h.marks hne⟩
      · refine ⟨fun _ => ⟨?_, rfl⟩, fun hq => absurd rfl hq, fun hq => absurd rfl hq⟩
        intro e he
        obtain ⟨-, -, rfl⟩ := List.mem_map.1 he
        rfl

/-- Every step keeps the barrier and its history in agreement. -/
theorem Faithful.take (h : c.Faithful) (step : BarrierStep) : (c.take step).Faithful := by
  cases step with
  | register w => exact h.register w
  | deregister w => exact h.deregister w
  | enter w => exact h.enter w
  | goOn w =>
      by_cases hw : w ∈ c.barrier.stopped ∧ c.barrier.phase ≠ .awaitingReady
      · have htake : c.take (.goOn w) =
            ⟨c.past, { c.barrier with stopped := c.barrier.stopped.erase w }⟩ := by
          simp [BarrierCourse.take, Barrier.take, hw]
        rw [htake]
        exact h.silent rfl rfl rfl (fun _ he => he) (fun _ _ hv => hv)
      · have htake : c.take (.goOn w) = c := by
          simp only [BarrierCourse.take, Barrier.take, if_neg hw]
          rfl
        rwa [htake]
  | leave w => exact h.leave w
  | request target => exact h.silent rfl rfl rfl (fun _ he => he) (fun _ _ hv => hv)
  | beginRequest => exact h.beginRequest
  | advance => exact h.advance

theorem faithful_ofSteps (initial : Protocol) (steps : List BarrierStep) :
    (ofSteps initial steps).Faithful :=
  List.foldlRecOn steps take (faithful_ofProtocol initial) fun _ h step _ => h.take step

/-- While a switch goes on, its phase stays unless the switch is advanced. -/
theorem phase_take {step : BarrierStep} (hphase : c.barrier.phase ≠ .stable)
    (hstep : step ≠ .advance) : (c.take step).barrier.phase = c.barrier.phase := by
  simp only [BarrierCourse.take]
  cases step with
  | register w =>
      simp only [Barrier.take]
      cases hr : c.barrier.register w with
      | error f => rfl
      | ok r => exact Barrier.phase_register hr
  | deregister w => rfl
  | enter w =>
      simp only [Barrier.take]
      cases hr : c.barrier.enter w with
      | error f => rfl
      | ok r => exact Barrier.phase_enter hr
  | goOn w =>
      simp only [Barrier.take]
      split <;> rfl
  | leave w =>
      simp only [Barrier.take]
      cases hr : c.barrier.leave w with
      | error f => rfl
      | ok r => exact Barrier.phase_leave hr
  | request target => rfl
  | beginRequest =>
      simp only [Barrier.take]
      cases hr : c.barrier.begin? with
      | none => rfl
      | some r => exact absurd (Barrier.begin?_eq_some hr).1 hphase
  | advance => exact absurd rfl hstep

/-- A switch that leaves a phase is advanced. -/
theorem advance?_of_phase_ne (step : BarrierStep) (hphase : c.barrier.phase ≠ .stable)
    (hne : (c.take step).barrier.phase ≠ c.barrier.phase) :
    ∃ report, c.barrier.advance? = some (report, (c.take step).barrier) := by
  by_cases hstep : step = .advance
  · subst hstep
    simp only [BarrierCourse.take, Barrier.take] at hne ⊢
    cases hr : c.barrier.advance? with
    | none => exact absurd (by rw [hr]) hne
    | some r => exact ⟨r.1, rfl⟩
  · exact absurd (phase_take hphase hstep) hne

/-- The barrier stops waiting for workers to be ready only when each has come to its boundary or
has joined since the request began. -/
theorem Faithful.ready_of_leaves (h : c.Faithful) {step : BarrierStep}
    (hp : c.barrier.phase = .awaitingReady)
    (hne : (c.take step).barrier.phase ≠ .awaitingReady) (w : Nat)
    (hw : (c.barrier.marks? w).isSome) :
    .entered w ∈ c.past.sinceRequest ∨ (c.past.sinceRequest.start? w).isSome := by
  have hstable : c.barrier.phase ≠ .stable := by simp [hp]
  obtain ⟨report, hr⟩ := advance?_of_phase_ne step hstable (by rw [hp]; exact hne)
  rcases Barrier.advance?_eq_some hr with ⟨-, hall, -⟩ | ⟨hq, -, -⟩
  · obtain ⟨m, hm⟩ := Option.isSome_iff_exists.1 hw
    have htells := h.marks hstable w m hm
    simp only [BarrierHistory.Tells] at htells
    cases hs : c.past.sinceRequest.start? w with
    | none =>
        rw [hs] at htells
        left
        exact htells.1 (Barrier.ready_of_allReady hall hm)
    | some start =>
        right
        rfl
  · rw [hp] at hq
    cases hq

/-- The barrier is stable again only when each worker that was there before has been told the new
protocol exactly once, and each that has joined since then started with it. -/
theorem Faithful.told_of_stable (h : c.Faithful) {step : BarrierStep}
    (hstable : c.barrier.phase ≠ .stable) (hp : (c.take step).barrier.phase = .stable) :
    ∃ source target, c.past.lastRequest? = some (source, target) ∧
      (c.take step).barrier.current = target ∧
      ∀ w, (c.barrier.marks? w).isSome →
        match c.past.sinceRequest.start? w with
        | none => c.past.sinceRequest.told w = [target]
        | some start => start = target ∧ (c.past.sinceJoined w).told w = [] := by
  obtain ⟨report, hr⟩ := advance?_of_phase_ne step hstable (by rw [hp]; exact hstable.symm)
  rcases Barrier.advance?_eq_some hr with ⟨-, -, hb⟩ | ⟨-, hall, hb⟩
  · rw [hb] at hp
    cases hp
  · refine ⟨_, _, h.request hstable, congrArg Barrier.current hb, ?_⟩
    intro w hw
    obtain ⟨m, hm⟩ := Option.isSome_iff_exists.1 hw
    have htells := h.marks hstable w m hm
    simp only [BarrierHistory.Tells] at htells
    cases hs : c.past.sinceRequest.start? w with
    | none =>
        rw [hs] at htells
        have htold := htells.2
        rwa [Barrier.finished_of_allFinished hall hm, if_pos rfl] at htold
    | some start =>
        rw [hs] at htells
        exact htells.2

/-- While a switch goes on, the protocols are those of its request. -/
theorem Faithful.protocols (h : c.Faithful) (hstable : c.barrier.phase ≠ .stable) :
    ∃ source target, c.past.lastRequest? = some (source, target) ∧
      c.barrier.current = source ∧ c.barrier.next = target ∧
      c.barrier.required = source.safeTransition target := by
  refine ⟨_, _, h.request hstable, rfl, rfl, ?_⟩
  unfold Barrier.required
  split
  · contradiction
  · rfl

/-- A stable barrier has no marks set and no other protocol to come. -/
theorem Faithful.at_rest (h : c.Faithful) (hstable : c.barrier.phase = .stable) :
    (∀ e ∈ c.barrier.workers, e.2.ready = false ∧ e.2.finished = false) ∧
      c.barrier.current = c.barrier.next := by
  refine ⟨?_, (h.quiet hstable).2⟩
  intro e he
  rw [(h.quiet hstable).1 e he]
  exact ⟨rfl, rfl⟩

/-- A switch waits for everybody. In whatever order the steps come, the barrier stops waiting
for workers to be ready only when each registered worker has come to its boundary or has
joined since the request began; it is stable again only when each worker that was there before
has been told the new protocol exactly once, and each that has joined since then started with
it and was told nothing more; until then the two protocols, and with them the one that commits
follow, stay as they were when the request began; and a stable barrier has no marks set and no
other protocol to come. -/
theorem switch_waits_for_all (initial : Protocol) (steps : List BarrierStep)
    (step : BarrierStep) :
    let c := ofSteps initial steps
    let next := (c.take step).barrier
    (c.barrier.phase = .awaitingReady → next.phase ≠ .awaitingReady →
      ∀ w, (c.barrier.marks? w).isSome →
        .entered w ∈ c.past.sinceRequest ∨ (c.past.sinceRequest.start? w).isSome) ∧
    (c.barrier.phase ≠ .stable → next.phase = .stable →
      ∃ source target, c.past.lastRequest? = some (source, target) ∧ next.current = target ∧
        ∀ w, (c.barrier.marks? w).isSome →
          match c.past.sinceRequest.start? w with
          | none => c.past.sinceRequest.told w = [target]
          | some start => start = target ∧ (c.past.sinceJoined w).told w = []) ∧
    (c.barrier.phase ≠ .stable →
      ∃ source target, c.past.lastRequest? = some (source, target) ∧
        c.barrier.current = source ∧ c.barrier.next = target ∧
        c.barrier.required = source.safeTransition target) ∧
    (c.barrier.phase = .stable →
      (∀ e ∈ c.barrier.workers, e.2.ready = false ∧ e.2.finished = false) ∧
        c.barrier.current = c.barrier.next) := by
  intro c next
  have h : c.Faithful := faithful_ofSteps initial steps
  exact ⟨h.ready_of_leaves, h.told_of_stable, h.protocols, h.at_rest⟩

/-- Two workers pass a switch; the second one joins while it goes on. -/
example :
    let c := ofSteps .serializable
      [.register 1, .request .snapshot, .beginRequest, .enter 1, .register 2, .advance, .goOn 1,
        .leave 1, .leave 2, .advance]
    c.barrier.phase = .stable ∧ c.barrier.current = .snapshot ∧
      c.past.told 1 = [.snapshot] ∧ c.past.start? 2 = some .snapshot ∧ c.past.told 2 = [] := by
  decide

end BarrierCourse

end LiveIsolation
