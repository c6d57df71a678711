import LiveIsolation.Proofs.Engine.Muster

/-!
# Where a switch comes to rest

Requests begin, switches go on, and workers that a switch has stopped go on too, without a call of
anybody (`Engine.Steps`). Such steps come to an end, since each leaves less to be done
(`Barrier.remaining`). What is left then is an engine that runs the protocol asked for last, or one
that waits for a worker to end its transaction: it never waits for a worker that is ready already
(`Engine.switch_not_stuck`).

## Implementation notes

While a switch is under way, those that it waits for are the workers whose marks are not ready.
Each was there when the request began, has not been closed since, and has made no call that ends
its transaction, unless that call is still held up at the gate of its link (`Engine.Underway`).
This is preserved by every turn, and the claims about runs follow by induction on the turns.
-/

namespace LiveIsolation

/-- A request begins if it can. -/
abbrev Turn.beginRequest : Turn := .plain (.action .beginRequest)

namespace Barrier

variable {b c : Barrier}

/-- What is left of a switch in each phase. -/
def weight : SwitchPhase → Nat
  | .stable => 0
  | .awaitingReady => 2
  | .awaitingFinished => 1

/-- A bound for the steps that are taken without a call. -/
def remaining (b : Barrier) : Nat := 3 * b.queue.length + weight b.phase + b.stopped.length

theorem remaining_begin? {report : Option SwitchReport} (h : b.begin? = some (report, c)) :
    c.remaining < b.remaining := by
  obtain ⟨hphase, target, queue, hqueue, ⟨-, -, rfl⟩ | ⟨-, -, rfl⟩⟩ := begin?_eq_some h
  · simp [remaining, hqueue]
  · simp only [remaining, clearMarks, weight, hqueue, hphase, List.length_cons]
    omega

theorem remaining_advance? {report : Option SwitchReport} (h : b.advance? = some (report, c)) :
    c.remaining < b.remaining := by
  rcases advance?_eq_some h with ⟨hphase, -, rfl⟩ | ⟨hphase, -, rfl⟩
  · simp [remaining, weight, hphase]
  · simp [remaining, clearMarks, weight, hphase]

/-- Where no request can begin outside a switch, none is waiting. -/
theorem queue_eq_nil (h : b.begin? = none) (hphase : b.phase = .stable) : b.queue = [] := by
  cases hqueue : b.queue with
  | nil => rfl
  | cons target queue =>
      simp only [begin?, hphase, hqueue] at h
      split at h
      · cases h
      · cases h

theorem allReady_of_awaited (h : b.advance? = none) (hphase : b.phase = .awaitingReady) :
    b.allReady = false := by
  simpa [advance?, hphase] using h

theorem allFinished_of_awaited (h : b.advance? = none) (hphase : b.phase = .awaitingFinished) :
    b.allFinished = false := by
  simpa [advance?, hphase] using h

end Barrier

namespace Engine

variable {e e' : Engine} {id : Nat} {later turns : List Turn} {b : Barrier}
  {standing : Nat → Standing}

/-- A step that is taken without a call. -/
inductive Steps (e : Engine) : Engine → Prop where
  | begins (report : Option SwitchReport) (barrier : Barrier)
    (h : e.barrier.begin? = some (report, barrier)) : Steps e { e with barrier }
  | advances (report : Option SwitchReport) (barrier : Barrier)
    (h : e.barrier.advance? = some (report, barrier)) : Steps e { e with barrier }
  | resumes (id : Nat) (hstopped : id ∈ e.barrier.stopped)
    (hphase : e.barrier.phase ≠ .awaitingReady) : Steps e (e.take (.resume id)).2

/-- Everything has come to rest: no step is taken without a call, and no store is awaited. -/
structure AtRest (e : Engine) : Prop where
  steps : ∀ e', ¬e.Steps e'
  gate : ∀ id, e.standing id ≠ .atGate

/-- No switch is under way and none is asked for, and no call is held up. -/
structure Settled (e : Engine) : Prop where
  phase : e.barrier.phase = .stable
  queue : e.barrier.queue = []
  idle : ∀ id, e.busy id = false

section Steps

theorem Steps.remaining (h : e.Steps e') : e'.barrier.remaining < e.barrier.remaining := by
  cases h with
  | begins report barrier hbegin => exact Barrier.remaining_begin? hbegin
  | advances report barrier hadvance => exact Barrier.remaining_advance? hadvance
  | resumes id hstopped hphase =>
      have hkeeps : e.barrier.Keeps (e.resume id).2.barrier := by
        rcases e.resume_inv id with ⟨w, call, result, -, -, hresume⟩ | ⟨-, hresume⟩
        · obtain ⟨boundary, -, hleaving⟩ := leave_inv (Prod.eta (e.leave w call result)).symm
          obtain ⟨barrier, levels, protocol, blocked, hcrossed, hkeeps⟩ := hleaving.crossed
          rw [hresume, hcrossed]
          exact hkeeps
        · rw [hresume]
          exact .refl _
      have htake : (e.take (.resume id)).2 =
          (e.resume id).2.withStopped (e.barrier.stopped.erase id) := by
        simp only [take]
        rw [if_pos ⟨hstopped, hphase⟩, resume_withStopped]
      have hlength := List.length_erase_of_mem hstopped
      have hpos := List.length_pos_of_mem hstopped
      rw [htake]
      simp only [withStopped, Barrier.remaining, hkeeps.queue, e.resume_phase id]
      omega

/-- Steps that are taken without a call come to an end, in whatever order they are taken. -/
theorem wellFounded_steps : WellFounded fun e' e : Engine => e.Steps e' :=
  Subrelation.wf (fun h => h.remaining)
    (InvImage.wf (fun e : Engine => e.barrier.remaining) Nat.lt_wfRel.wf)

theorem Steps.drifts (h : e.Steps e') : e.Drifts e' := by
  cases h with
  | begins report barrier hbegin => exact drifts_begin? hbegin
  | advances report barrier hadvance => exact drifts_advance? hadvance
  | resumes id _ _ => exact ⟨[.resume id], fun a ha => by simp_all, rfl⟩

/-- A step that is taken without a call is a turn. -/
theorem Steps.turn (h : e.Steps e') : ∃ turn, (e.turn turn).2 = e' := by
  cases h with
  | begins report barrier hbegin =>
      exact ⟨.beginRequest, by simp only [Engine.turn, occur, take, hbegin]⟩
  | advances report barrier hadvance =>
      exact ⟨.plain (.action .advance), by simp only [Engine.turn, occur, take, hadvance]⟩
  | resumes id _ _ => exact ⟨.plain (.action (.resume id)), rfl⟩

/-- Who is at the gate of its link stays there, and nobody comes to it, without a call. -/
theorem Mustered.gate_of_steps (h : e.Mustered) (hsteps : e.Steps e')
    (hgate : ∀ id, e.standing id ≠ .atGate) (id : Nat) : e'.standing id ≠ .atGate := by
  cases hsteps with
  | begins report barrier _ => exact hgate id
  | advances report barrier _ => exact hgate id
  | resumes i hstopped hphase =>
      obtain ⟨told, -, hstanding⟩ := h.seated.resume_standing
        ((h.musters.stopped i).1 hstopped) (e.barrier.stopped.erase i)
      simp only [take]
      rw [if_pos ⟨hstopped, hphase⟩, hstanding, Function.update_apply]
      split
      · simp
      · exact hgate id

/-- Where nobody is at a gate, everything comes to rest. -/
theorem Mustered.comes_to_rest (h : e.Mustered) (hgate : ∀ id, e.standing id ≠ .atGate) :
    ∃ e', e.Drifts e' ∧ e'.AtRest := by
  induction e using wellFounded_steps.induction with
  | _ e ih =>
      by_cases hrest : ∃ e', e.Steps e'
      · obtain ⟨e', hsteps⟩ := hrest
        obtain ⟨turn, hturn⟩ := hsteps.turn
        obtain ⟨e₂, hdrifts, hrested⟩ :=
          ih e' hsteps (hturn ▸ h.turn turn) (h.gate_of_steps hsteps hgate)
        exact ⟨e₂, hsteps.drifts.trans hdrifts, hrested⟩
      · exact ⟨e, .refl e, not_exists.1 hrest, hgate⟩

end Steps

section Rest

/-- Where everything has come to rest, no worker is awaited that could go on. -/
theorem AtRest.settled_or_awaits (h : e.AtRest) (hm : e.Mustered) :
    e.Settled ∨ (e.barrier.phase = .awaitingReady ∧
      ∃ id m, e.barrier.marks? id = some m ∧ m.ready = false) := by
  have hbegin : e.barrier.begin? = none := by
    cases hb : e.barrier.begin? with
    | none => rfl
    | some r => exact absurd (.begins r.1 r.2 hb) (h.steps _)
  have hadvance : e.barrier.advance? = none := by
    cases hb : e.barrier.advance? with
    | none => rfl
    | some r => exact absurd (.advances r.1 r.2 hb) (h.steps _)
  have hstopped : e.barrier.phase ≠ .awaitingReady → ∀ id, e.standing id ≠ .atBoundary := by
    intro hphase id hid
    exact h.steps _ (.resumes id ((hm.musters.stopped id).2 hid) hphase)
  cases hphase : e.barrier.phase with
  | stable =>
      refine .inl ⟨hphase, Barrier.queue_eq_nil hbegin hphase, fun id => ?_⟩
      cases hbusy : e.busy id with
      | false => rfl
      | true =>
          obtain hgate | hboundary := standing_of_busy hbusy
          · exact absurd hgate (h.gate id)
          · exact absurd hboundary (hstopped (by simp [hphase]) id)
  | awaitingReady =>
      have hunready := Barrier.allReady_of_awaited hadvance hphase
      rw [Barrier.allReady, List.all_eq_false] at hunready
      obtain ⟨⟨id, m⟩, hmem, hm'⟩ := hunready
      exact .inr ⟨rfl, id, m, hm.musters.sorted.lookup_of_mem hmem, by simpa using hm'⟩
  | awaitingFinished =>
      have hunfinished := Barrier.allFinished_of_awaited hadvance hphase
      rw [Barrier.allFinished, List.all_eq_false] at hunfinished
      obtain ⟨⟨id, m⟩, hmem, hm'⟩ := hunfinished
      have hmarks : e.barrier.marks? id = some m := hm.musters.sorted.lookup_of_mem hmem
      have hfinished := hm.musters.finished hphase (hstopped (by simp [hphase]) id) hmarks
      exact absurd (by rw [hfinished]) hm'

end Rest

section Underway

/-- The workers that turns are about, in the sense of `who?`. -/
def whoIn (who? : Engine → Turn → Option Nat) (e : Engine) : List Turn → List Nat
  | [] => []
  | turn :: rest => (who? e turn).toList ++ (e.turn turn).2.whoIn who? rest

/-- The workers that make a call in some turns which ends their transactions. -/
abbrev callers (e : Engine) (turns : List Turn) : List Nat := e.whoIn caller? turns

/-- The workers that are closed in some turns. -/
abbrev closers (e : Engine) (turns : List Turn) : List Nat := e.whoIn closer? turns

theorem mem_whoIn_concat {who? : Engine → Turn → Option Nat} (e : Engine) (turns : List Turn)
    (turn : Turn) : id ∈ e.whoIn who? (turns ++ [turn]) ↔
      id ∈ e.whoIn who? turns ∨ who? (e.through turns) turn = some id := by
  induction turns generalizing e with
  | nil => simp [whoIn, through]
  | cons first rest ih =>
      simp only [List.cons_append, whoIn, List.mem_append, ih, or_assoc]
      rfl

/-- Some turns after a request has begun, its switch is still under way. -/
structure Underway (e : Engine) (later : List Turn) : Prop where
  phase : ∀ first, first <+: later → (e.through first).barrier.phase ≠ .stable
  next : (e.through later).barrier.next = e.barrier.next
  /-- The workers that it waits for. -/
  unready : ∀ id m, (e.through later).barrier.marks? id = some m → m.ready = false →
    (e.barrier.marks? id).isSome = true ∧ id ∉ e.closers later ∧
      (id ∈ e.callers later → (e.through later).standing id = .atGate)

/-- A turn leaves the phase and the protocols alone, unless it is a step of the switch itself. -/
theorem Alters.switch_cases {turn : Turn} (h : e.Alters turn b standing) :
    (b.phase = e.barrier.phase ∧ e.barrier.Keeps b) ∨
      (∃ target, turn = .plain (.action (.request target)) ∧ b = e.barrier.request target) ∨
      (turn = .beginRequest ∧ ∃ report, e.barrier.begin? = some (report, b)) ∨
      ∃ report, e.barrier.advance? = some (report, b) := by
  cases h with
  | aside _ _ _ => exact .inl ⟨rfl, .refl _⟩
  | held _ id _ _ _ => exact .inl ⟨rfl, .refl _⟩
  | passes _ id _ _ _ _ s hpasses =>
      cases hpasses with
      | stops _ henter => exact .inl ⟨Barrier.phase_enter henter, Barrier.keeps_enter henter⟩
      | leaves _ _ _ _ hleave =>
          exact .inl ⟨Barrier.phase_leave hleave, Barrier.keeps_leave hleave⟩
  | resumes id _ _ told _ hleave =>
      have hphase := Barrier.phase_leave hleave
      obtain ⟨hcurrent, hnext, hqueue⟩ := Barrier.keeps_leave hleave
      exact .inl ⟨hphase, hcurrent, hnext, hqueue⟩
  | joins _ id _ _ start _ hregister =>
      exact .inl ⟨Barrier.phase_register hregister, Barrier.keeps_register hregister⟩
  | turnedAway _ id _ _ start c hregister =>
      have hphase := Barrier.phase_register hregister
      obtain ⟨hcurrent, hnext, hqueue⟩ := Barrier.keeps_register hregister
      exact .inl ⟨hphase, hcurrent, hnext, hqueue⟩
  | closes id _ => exact .inl ⟨rfl, rfl, rfl, rfl⟩
  | requests target => exact .inr (.inl ⟨target, rfl, rfl⟩)
  | begins report _ hbegin => exact .inr (.inr (.inl ⟨rfl, report, hbegin⟩))
  | advances report _ hadvance => exact .inr (.inr (.inr ⟨report, hadvance⟩))

/-- While a switch is under way it keeps its target, and it ends by running it. -/
theorem Alters.switch {turn : Turn} (h : e.Alters turn b standing)
    (hphase : e.barrier.phase ≠ .stable) :
    (b.phase = .stable ∧ b.current = e.barrier.next) ∨
      (b.phase ≠ .stable ∧ b.next = e.barrier.next) := by
  rcases h.switch_cases with ⟨hsame, hkeeps⟩ | ⟨target, -, rfl⟩ | ⟨-, report, hbegin⟩ |
    ⟨report, hadvance⟩
  · exact .inr ⟨hsame ▸ hphase, hkeeps.next⟩
  · exact .inr ⟨hphase, rfl⟩
  · exact absurd (Barrier.begin?_eq_some hbegin).1 hphase
  · rcases Barrier.advance?_eq_some hadvance with ⟨-, -, rfl⟩ | ⟨-, -, rfl⟩
    · exact .inr ⟨nofun, rfl⟩
    · exact .inl ⟨rfl, rfl⟩

/-- Only a request that begins starts a switch. -/
theorem Alters.begun {turn : Turn} (h : e.Alters turn b standing)
    (hstable : e.barrier.phase = .stable) (hphase : b.phase ≠ .stable) :
    turn = .beginRequest ∧ e.barrier.begin? = some (none, b) := by
  rcases h.switch_cases with ⟨hsame, -⟩ | ⟨target, -, rfl⟩ | ⟨rfl, report, hbegin⟩ |
    ⟨report, hadvance⟩
  · exact absurd (hsame.trans hstable) hphase
  · exact absurd hstable hphase
  · obtain ⟨-, target, queue, -, ⟨-, -, rfl⟩ | ⟨-, rfl, -⟩⟩ := Barrier.begin?_eq_some hbegin
    · exact absurd hstable hphase
    · exact ⟨rfl, hbegin⟩
  · rw [Barrier.advance?_eq_none_of_stable hstable] at hadvance
    cases hadvance

/-- Where no request waits and none comes, an engine goes on running its protocol. -/
theorem Alters.runs {turn : Turn} (h : e.Alters turn b standing) (hqueue : e.barrier.queue = [])
    (hturn : ∀ target, turn ≠ .plain (.action (.request target))) :
    b.queue = [] ∧ (e.barrier.phase = .stable →
      b.phase = .stable ∧ b.current = e.barrier.current) := by
  rcases h.switch_cases with ⟨hsame, hkeeps⟩ | ⟨target, hrequest, -⟩ | ⟨-, report, hbegin⟩ |
    ⟨report, hadvance⟩
  · exact ⟨hkeeps.queue.trans hqueue, fun hstable => ⟨hsame.trans hstable, hkeeps.current⟩⟩
  · exact absurd hrequest (hturn target)
  · obtain ⟨-, target, queue, hcons, -⟩ := Barrier.begin?_eq_some hbegin
    cases hqueue.symm.trans hcons
  · rcases Barrier.advance?_eq_some hadvance with ⟨hready, -, rfl⟩ | ⟨hfinished, -, rfl⟩
    · exact ⟨hqueue, fun hstable => by cases hstable.symm.trans hready⟩
    · exact ⟨hqueue, fun hstable => by cases hstable.symm.trans hfinished⟩

/-- A worker that a switch waits for after a turn was waited for before, has made no call that is
not held up at its gate, and is not closed. -/
theorem Alters.unready {turn : Turn} (h : e.Alters turn b standing)
    (hphase : e.barrier.phase ≠ .stable) (hready : b.phase = .awaitingReady) {m : SwitchMarks}
    (hid : b.marks? id = some m) (hunready : m.ready = false) :
    e.barrier.marks? id = some m ∧ e.closer? turn ≠ some id ∧
      (e.caller? turn = some id ∨ e.standing id = .atGate → standing id = .atGate) := by
  have hsilent : ∀ {o : Option Nat}, o = none → o ≠ some id := by
    rintro o rfl
    simp
  -- the turn of another worker leaves this one where it is
  have hother : ∀ {i : Nat} (s : Standing), id ≠ i → (∀ j, e.caller? turn = some j → j = i) →
      e.caller? turn = some id ∨ e.standing id = .atGate →
        Function.update e.standing i s id = .atGate := by
    intro i s hne hcaller hcalls
    rw [Function.update_of_ne hne]
    exact hcalls.resolve_left fun hcall => hne (hcaller id hcall)
  have hnobody : ∀ {i : Nat}, e.caller? turn = none → ∀ j, e.caller? turn = some j → j = i := by
    intro i hnone j hj
    cases hnone.symm.trans hj
  cases h with
  | aside _ hcaller hcloser =>
      exact ⟨hid, hsilent hcloser, fun hcalls => hcalls.resolve_left (hsilent hcaller)⟩
  | held _ i _ hcaller hcloser =>
      refine ⟨hid, hsilent hcloser, fun hcalls => ?_⟩
      by_cases hi : id = i
      · rw [hi, Function.update_self]
      · exact hother _ hi hcaller hcalls
  | passes _ i _ hcaller hcloser _ s hpasses =>
      suffices hold : id ≠ i ∧ e.barrier.marks? id = some m from
        ⟨hold.2, hsilent hcloser, hother s hold.1 hcaller⟩
      cases hpasses with
      | stops _ henter =>
          obtain ⟨k, -, ⟨-, -, -, rfl⟩ | ⟨-, hnone, -⟩⟩ := Barrier.enter_eq_ok henter
          · have hmarks := (Barrier.marks?_mark e.barrier i id _).symm.trans hid
            split at hmarks
            · rw [← Option.some.inj hmarks] at hunready
              cases hunready
            · rename_i hi
              exact ⟨hi, hmarks⟩
          · cases hnone
      | leaves required henter told _ hleave =>
          obtain ⟨k, hk, ⟨-, -, hnone, -⟩ | ⟨hpassed, -, -⟩⟩ := Barrier.enter_eq_ok henter
          · cases hnone
          · obtain ⟨l, -, ⟨hfinished, -, -, rfl⟩ | ⟨-, -, rfl⟩⟩ := Barrier.leave_eq_ok hleave
            · cases hready.symm.trans hfinished
            · refine ⟨?_, hid⟩
              rintro rfl
              rw [hk, Option.some.injEq] at hid
              exact hpassed ⟨hready, hid ▸ hunready⟩
  | resumes i _ hgone told _ hleave =>
      exact absurd ((Barrier.phase_leave hleave).symm.trans hready) hgone
  | joins _ i hcaller hcloser start _ hregister =>
      rcases Barrier.register_eq_ok hregister with ⟨hstable, -, -⟩ | ⟨-, -, rfl⟩
      · exact absurd hstable hphase
      · rw [Barrier.marks?_mark] at hid
        split at hid
        · rw [← Option.some.inj hid] at hunready
          cases hunready
        · rename_i hi
          exact ⟨hid, hsilent hcloser, hother _ hi (hnobody hcaller)⟩
  | turnedAway _ i hcaller hcloser start c hregister =>
      rw [Barrier.marks?_deregister] at hid
      split at hid
      · cases hid
      · rename_i hi
        have hmarks : c.marks? id = e.barrier.marks? id := by
          rcases Barrier.register_eq_ok hregister with ⟨-, -, rfl⟩ | ⟨-, -, rfl⟩
          · rw [Barrier.marks?_mark, if_neg hi]
          · rw [Barrier.marks?_mark, if_neg hi]
        exact ⟨hmarks ▸ hid, hsilent hcloser, fun hcalls => hcalls.resolve_left (hsilent hcaller)⟩
  | closes i hfree =>
      rw [Barrier.marks?_deregister] at hid
      split at hid
      · cases hid
      · rename_i hi
        refine ⟨hid, ?_, hother _ hi (hnobody rfl)⟩
        rw [closer?, if_pos hfree]
        exact fun he => hi (Option.some.inj he).symm
  | requests target => exact ⟨hid, hsilent rfl, fun hcalls => hcalls.resolve_left (hsilent rfl)⟩
  | begins report _ hbegin => exact absurd (Barrier.begin?_eq_some hbegin).1 hphase
  | advances report _ hadvance =>
      rcases Barrier.advance?_eq_some hadvance with ⟨-, -, rfl⟩ | ⟨-, -, rfl⟩
      · cases hready
      · cases hready

/-- A switch that is under way goes on after a turn, or has ended by running its target. -/
theorem Underway.concat (h : e.Underway later) (hm : (e.through later).Mustered) (turn : Turn) :
    ((e.through (later ++ [turn])).barrier.phase = .stable ∧
        (e.through (later ++ [turn])).barrier.current = e.barrier.next) ∨
      e.Underway (later ++ [turn]) := by
  have halters := hm.alters turn
  rw [← through_concat] at halters
  have hmustered := halters.musters hm.musters
  have hphase := h.phase later (List.prefix_refl later)
  rcases halters.switch hphase with ⟨hstable, hcurrent⟩ | ⟨hne, hnext⟩
  · exact .inl ⟨hstable, hcurrent.trans h.next⟩
  · refine .inr ⟨?_, hnext.trans h.next, ?_⟩
    · intro first hfirst
      rcases List.prefix_concat_iff.1 hfirst with rfl | hfirst
      · exact hne
      · exact h.phase first hfirst
    · intro id m hid hunready
      have hready : (e.through (later ++ [turn])).barrier.phase = .awaitingReady := by
        cases hp : (e.through (later ++ [turn])).barrier.phase with
        | stable => exact absurd hp hne
        | awaitingReady => rfl
        | awaitingFinished => rw [hmustered.ready hp id m hid] at hunready; cases hunready
      obtain ⟨hbefore, hcloser, hcaller⟩ := halters.unready hphase hready hid hunready
      obtain ⟨hthere, hclosers, hcallers⟩ := h.unready id m hbefore hunready
      refine ⟨hthere, ?_, ?_⟩
      · rw [closers, mem_whoIn_concat, not_or]
        exact ⟨hclosers, hcloser⟩
      · rw [callers, mem_whoIn_concat]
        exact fun hcalls => hcaller (hcalls.symm.imp_right hcallers)

/-- A switch that has begun is under way after some turns, or has ended in them by running its
target. -/
theorem Mustered.underway_or_ended (h : e.Mustered) (hphase : e.barrier.phase = .awaitingReady)
    (later : List Turn) :
    e.Underway later ∨ ∃ first, first <+: later ∧ (e.through first).barrier.phase = .stable ∧
      (e.through first).barrier.current = e.barrier.next := by
  induction later using List.reverseRecOn with
  | nil =>
      refine .inl ⟨?_, rfl, ?_⟩
      · intro first hfirst
        rw [List.prefix_nil.1 hfirst]
        exact fun hstable => by cases hphase.symm.trans hstable
      · intro id m hid _
        refine ⟨Option.isSome_iff_exists.2 ⟨m, hid⟩, List.not_mem_nil, ?_⟩
        exact fun hcalls => absurd hcalls List.not_mem_nil
  | append_singleton later turn ih =>
      rcases ih with hunderway | ⟨first, hfirst, hended⟩
      · rcases hunderway.concat (h.through later) turn with hended | hunderway
        · exact .inr ⟨_, List.prefix_refl _, hended⟩
        · exact .inl hunderway
      · exact .inr ⟨first, hfirst.trans (List.prefix_append later [turn]), hended⟩

/-- A switch that is under way has begun with one of the turns. -/
theorem Mustered.exists_begun (h : e.Mustered) (hstable : e.barrier.phase = .stable)
    (turns : List Turn) (hphase : (e.through turns).barrier.phase ≠ .stable) :
    ∃ before later b, turns = before ++ .beginRequest :: later ∧
      (e.through before).barrier.begin? = some (none, b) ∧
        (e.through (before ++ [.beginRequest])).Underway later := by
  induction turns using List.reverseRecOn with
  | nil => exact absurd hstable hphase
  | append_singleton turns turn ih =>
      have hm := h.through turns
      have halters := hm.alters turn
      rw [← through_concat] at halters
      by_cases hbefore : (e.through turns).barrier.phase = .stable
      · obtain ⟨rfl, hbegin⟩ := halters.begun hbefore hphase
        have hmustered := h.through (turns ++ [.beginRequest])
        have hready : (e.through (turns ++ [.beginRequest])).barrier.phase = .awaitingReady := by
          obtain ⟨-, target, queue, -, ⟨-, hreport, -⟩ | ⟨-, -, hb⟩⟩ :=
            Barrier.begin?_eq_some hbegin
          · cases hreport
          · rw [hb]
        refine ⟨turns, [], _, rfl, hbegin, ?_⟩
        rcases hmustered.underway_or_ended hready [] with hunderway | ⟨first, hfirst, hended, -⟩
        · exact hunderway
        · rw [List.prefix_nil.1 hfirst] at hended
          cases hready.symm.trans hended
      · obtain ⟨before, later, b, rfl, hbegin, hunderway⟩ := ih hbefore
        refine ⟨before, later ++ [turn], b, by simp, hbegin, ?_⟩
        have hsplit : ∀ rest, e.through (before ++ .beginRequest :: rest) =
            (e.through (before ++ [.beginRequest])).through rest := by
          intro rest
          rw [← through_append, List.append_assoc, List.singleton_append]
        have hsame : e.through (before ++ .beginRequest :: later ++ [turn]) =
            (e.through (before ++ [.beginRequest])).through (later ++ [turn]) := by
          rw [← hsplit]
          simp
        rw [hsplit] at hm
        rcases hunderway.concat hm turn with ⟨hended, -⟩ | hgoes
        · rw [hsame] at hphase
          exact absurd hended hphase
        · exact hgoes

end Underway

section Request

/-- No switch is under way, and the protocol in force is `p`. -/
def Runs (e : Engine) (p : Protocol) : Prop :=
  e.barrier.phase = .stable ∧ e.barrier.current = p

/-- A request begins after some turns, and a worker is awaited some later turns on: the switch is
still under way and waits for workers to be ready, and this one, which was there when the request
began and has not left, has made no call since that ends its transaction. -/
structure Awaits (e : Engine) (before later : List Turn) (id : Nat) : Prop where
  begun : ∃ b, (e.through before).barrier.begin? = some (none, b)
  phase : ∀ first, first <+: later →
    (e.through (before ++ .beginRequest :: first)).barrier.phase ≠ .stable
  ready : (e.through (before ++ .beginRequest :: later)).barrier.phase = .awaitingReady
  joined : ((e.through before).barrier.marks? id).isSome = true
  stays : ((e.through (before ++ .beginRequest :: later)).barrier.marks? id).isSome = true
  closer : id ∉ (e.through (before ++ [.beginRequest])).closers later
  caller : id ∉ (e.through (before ++ [.beginRequest])).callers later

/-- Everyone who was there when a request began has since made a call that ends its transaction, or
has been closed. -/
def Heard (e : Engine) (before later : List Turn) : Prop :=
  ∀ id, ((e.through before).barrier.marks? id).isSome = true →
    id ∈ (e.through (before ++ [.beginRequest])).callers later ∨
      id ∈ (e.through (before ++ [.beginRequest])).closers later

theorem through_request (e : Engine) (before rest : List Turn) :
    e.through (before ++ .beginRequest :: rest) =
      (e.through (before ++ [.beginRequest])).through rest := by
  rw [← through_append, List.append_assoc, List.singleton_append]

theorem through_begun {before : List Turn} {report : Option SwitchReport}
    (h : (e.through before).barrier.begin? = some (report, b)) :
    (e.through (before ++ [.beginRequest])).barrier = b := by
  simp only [through_concat, Engine.turn, occur, take, h]

/-- The first request begins, or is one for the protocol in force. -/
theorem begins_request {target : Protocol} {queue : List Protocol}
    (hstable : e.barrier.phase = .stable) (hqueue : e.barrier.queue = target :: queue) :
    ∃ report b, e.barrier.begin? = some (report, b) ∧ b.queue = queue ∧
      ((b.phase = .stable ∧ b.current = target) ∨
        (b.phase = .awaitingReady ∧ b.next = target)) := by
  cases hb : e.barrier.begin? with
  | none => cases (Barrier.queue_eq_nil hb hstable).symm.trans hqueue
  | some r =>
      obtain ⟨report, b⟩ := r
      obtain ⟨-, target', queue', hcons, hcases⟩ := Barrier.begin?_eq_some hb
      cases hqueue.symm.trans hcons
      rcases hcases with ⟨hcurrent, -, rfl⟩ | ⟨-, -, rfl⟩
      · exact ⟨_, _, rfl, rfl, .inl ⟨hstable, hcurrent⟩⟩
      · exact ⟨_, _, rfl, rfl, .inr ⟨rfl, rfl⟩⟩

/-- Where no request waits and none comes, an engine goes on running its protocol. -/
theorem Mustered.runs_through (h : e.Mustered) (hqueue : e.barrier.queue = []) (turns : List Turn)
    (hturns : ∀ target, .plain (.action (.request target)) ∉ turns) :
    (e.through turns).barrier.queue = [] ∧
      ∀ p, e.Runs p → (e.through turns).Runs p := by
  induction turns generalizing e with
  | nil => exact ⟨hqueue, fun _ hruns => hruns⟩
  | cons turn rest ih =>
      obtain ⟨hnext, hstays⟩ := (h.alters turn).runs hqueue fun target he =>
        hturns target (he ▸ List.mem_cons_self)
      obtain ⟨hlast, hruns⟩ := ih (h.turn turn) hnext fun target hmem =>
        hturns target (List.mem_cons_of_mem _ hmem)
      refine ⟨hlast, fun p hp => hruns p ?_⟩
      obtain ⟨hstable, hcurrent⟩ := hstays hp.1
      exact ⟨hstable, hcurrent.trans hp.2⟩

/-- A request that has begun ends by its target being in force, once everyone who was there has
made a call or is closed, and everything has come to rest. -/
theorem Mustered.request_ends (h : e.Mustered) {target : Protocol}
    (hbegun : e.Runs target ∨ (e.barrier.phase = .awaitingReady ∧ e.barrier.next = target))
    (hall : ∀ id, (e.barrier.marks? id).isSome = true →
      id ∈ e.callers later ∨ id ∈ e.closers later)
    (hrest : (e.through later).AtRest) :
    ∃ first, first <+: later ∧ (e.through first).Runs target := by
  rcases hbegun with hruns | ⟨hready, rfl⟩
  · exact ⟨[], List.nil_prefix, hruns⟩
  · rcases h.underway_or_ended hready later with hunderway | ⟨first, hfirst, hended⟩
    · rcases hrest.settled_or_awaits (h.through later) with hsettled | ⟨-, id, m, hid, hunready⟩
      · exact absurd hsettled.phase (hunderway.phase later (List.prefix_refl later))
      · obtain ⟨hthere, hcloser, hcaller⟩ := hunderway.unready id m hid hunready
        rcases hall id hthere with hcalls | hcloses
        · exact absurd (hcaller hcalls) (hrest.gate id)
        · exact absurd hcloses hcloser
    · exact ⟨first, hfirst, hended⟩

end Request

/-- A switch cannot get stuck. Where everything has come to rest, no switch is under way and no
request waits and no call is held up, or a switch waits for workers to be ready, and one that was
there when the request began has made no call since that ends its transaction. Once everyone who
was there has made such a call or has been closed, the target of the request has come into force,
and it still is if no other request has followed. And everything does come to rest, unless the store
keeps a commit waiting. -/
theorem switch_not_stuck {workload : Workload} {config : EngineConfig} {keys : KeyRule}
    (hcreate : create workload config keys = .ok e) (turns : List Turn) :
    ((e.through turns).AtRest →
      (e.through turns).Settled ∨
        ∃ before later id, turns = before ++ .beginRequest :: later ∧ e.Awaits before later id) ∧
    (∀ before later target queue, turns = before ++ .beginRequest :: later →
      (e.through before).barrier.phase = .stable →
      (e.through before).barrier.queue = target :: queue → e.Heard before later →
      (e.through turns).AtRest →
        (∃ first, first <+: later ∧ (e.through (before ++ .beginRequest :: first)).Runs target) ∧
          (queue = [] → (∀ p, .plain (.action (.request p)) ∉ later) →
            (e.through turns).Runs target)) ∧
    ((∀ id, (e.through turns).standing id ≠ .atGate) →
      ∃ e', (e.through turns).Drifts e' ∧ e'.AtRest) := by
  have hcreated := mustered_create hcreate
  have hm := hcreated.through turns
  have hnew : e.barrier.phase = .stable := by
    obtain ⟨protocol, locks, -, -, rfl⟩ := create_eq_ok hcreate
    rfl
  refine ⟨fun hrest => ?_, ?_, hm.comes_to_rest⟩
  · rcases hrest.settled_or_awaits hm with hsettled | ⟨hready, id, m, hid, hunready⟩
    · exact .inl hsettled
    · obtain ⟨before, later, b, rfl, hbegin, hunderway⟩ :=
        hcreated.exists_begun hnew turns (by simp [hready])
      have hsplit := e.through_request before later
      have hstarted := through_begun hbegin
      obtain ⟨hthere, hcloser, hcaller⟩ := hunderway.unready id m (hsplit ▸ hid) hunready
      refine .inr ⟨before, later, id, rfl, ⟨b, hbegin⟩, ?_, hready, ?_, ?_, hcloser, ?_⟩
      · intro first hfirst
        rw [through_request]
        exact hunderway.phase first hfirst
      · rw [hstarted] at hthere
        exact (Barrier.seats_begin? hbegin id).symm.trans hthere
      · exact Option.isSome_iff_exists.2 ⟨m, hid⟩
      · exact fun hcalls => hrest.gate id (hsplit ▸ hcaller hcalls)
  · rintro before later target queue rfl hstable hqueue hall hrest
    obtain ⟨report, b, hbegin, hrequests, hbegun⟩ := begins_request hstable hqueue
    have hstarted := through_begun hbegin
    have hmustered := hcreated.through (before ++ [.beginRequest])
    rw [through_request] at hrest ⊢
    have hall' : ∀ id, ((e.through (before ++ [.beginRequest])).barrier.marks? id).isSome = true →
        id ∈ (e.through (before ++ [.beginRequest])).callers later ∨
          id ∈ (e.through (before ++ [.beginRequest])).closers later := by
      intro id hid
      rw [hstarted] at hid
      exact hall id ((Barrier.seats_begin? hbegin id).symm.trans hid)
    rw [← hstarted] at hbegun hrequests
    obtain ⟨first, hfirst, hruns⟩ := hmustered.request_ends hbegun hall' hrest
    refine ⟨⟨first, hfirst, by rw [through_request]; exact hruns⟩, fun hempty hno => ?_⟩
    obtain ⟨rest, rfl⟩ := hfirst
    obtain ⟨hstill, -⟩ := hmustered.runs_through (hrequests.trans hempty) first fun p hp =>
      hno p (List.mem_append_left _ hp)
    have hlast := (hmustered.through first).runs_through hstill rest fun p hp =>
      hno p (List.mem_append_right _ hp)
    rw [through_append]
    exact hlast.2 target hruns

/-- What is tested of an engine that has come to rest. -/
def resting (e : Engine) : Bool :=
  e.barrier.begin?.isNone && e.barrier.advance?.isNone &&
    (e.barrier.stopped.isEmpty || decide (e.barrier.phase = .awaitingReady)) &&
      e.workers.all fun w => decide (w.2.standing ≠ .atGate)

theorem atRest_of_resting (h : e.resting = true) : e.AtRest := by
  simp only [resting, Bool.and_eq_true, Bool.or_eq_true, List.all_eq_true,
    Option.isNone_iff_eq_none, List.isEmpty_iff, decide_eq_true_eq] at h
  obtain ⟨⟨⟨hbegin, hadvance⟩, hstopped⟩, hgate⟩ := h
  refine ⟨fun e' hsteps => ?_, fun id hid => ?_⟩
  · cases hsteps with
    | begins report barrier h => cases hbegin.symm.trans h
    | advances report barrier h => cases hadvance.symm.trans h
    | resumes id hmem hphase =>
        rcases hstopped with hnobody | hready
        · rw [hnobody] at hmem
          cases hmem
        · exact hphase hready
  · cases hw : e.worker? id with
    | none =>
        rw [standing_of_none hw] at hid
        cases hid
    | some w =>
        rw [standing_of_worker? hw] at hid
        exact hgate (id, w) (Ordered.mem_of_lookup hw) hid

/-- Two workers are there when a request for snapshot isolation joins the queue. -/
def requested : List Turn :=
  [.plain (.action (.connect 1)), .plain (.action (.connect 2)),
    .plain (.action (.request .snapshot))]

/-- One of them comes to its boundary, where it is stopped. -/
def stoppedFirst : List Turn := [.plain (.action (.finish 1 .commit))]

/-- The other one is closed, and the switch goes on. -/
def closedSecond : List Turn :=
  stoppedFirst ++ [.plain (.action (.close 2)), .plain (.action .advance),
    .plain (.action (.resume 1)), .plain (.action .advance)]

theorem closed_second_runs_target :
    ∃ e, create ⟨[], ⟨0, []⟩, {}⟩ (.ofProtocol .serializable) RowKey.standard = .ok e ∧
      (∃ before later id, requested ++ .beginRequest :: stoppedFirst =
        before ++ .beginRequest :: later ∧ e.Awaits before later id) ∧
      (e.through (requested ++ .beginRequest :: closedSecond)).Runs .snapshot := by
  obtain ⟨e, hcreate, hfirst, hphase, hstable, hqueue, hall, hsecond⟩ := exists_create
    ⟨[], ⟨0, []⟩, {}⟩ (.ofProtocol .serializable) RowKey.standard
    (fun e => (e.through (requested ++ .beginRequest :: stoppedFirst)).resting = true ∧
      (e.through (requested ++ .beginRequest :: stoppedFirst)).barrier.phase = .awaitingReady ∧
      (e.through requested).barrier.phase = .stable ∧
      (e.through requested).barrier.queue = [.snapshot] ∧
      (∀ w ∈ (e.through requested).barrier.workers,
        w.1 ∈ (e.through (requested ++ [.beginRequest])).callers closedSecond ∨
          w.1 ∈ (e.through (requested ++ [.beginRequest])).closers closedSecond) ∧
      (e.through (requested ++ .beginRequest :: closedSecond)).resting = true) (by decide +kernel)
  have hheard : e.Heard requested closedSecond := by
    intro id hid
    obtain ⟨m, hm⟩ := Option.isSome_iff_exists.1 hid
    exact hall (id, m) (Ordered.mem_of_lookup hm)
  obtain ⟨-, hruns⟩ := (switch_not_stuck hcreate (requested ++ .beginRequest :: closedSecond)).2.1
    requested closedSecond .snapshot [] rfl hstable hqueue hheard (atRest_of_resting hsecond)
  have hwaits := ((switch_not_stuck hcreate (requested ++ .beginRequest :: stoppedFirst)).1
    (atRest_of_resting hfirst)).resolve_left fun hsettled => by
      cases hphase.symm.trans hsettled.phase
  exact ⟨e, hcreate, hwaits, hruns rfl (by simp [closedSecond, stoppedFirst])⟩

end Engine

end LiveIsolation
