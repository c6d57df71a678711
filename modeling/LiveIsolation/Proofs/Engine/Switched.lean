import LiveIsolation.Proofs.Engine.Execute
import LiveIsolation.Proofs.Engine.Turn

/-!
# Protocols of workers after a switch

A switch has ended when the barrier has told every worker the new protocol. Whether a worker
then runs under it is another question, since the worker must first ask the store for the
protocol's level, and the store can refuse. The worker then counts as finished although it
keeps its old protocol.

The notes of a run (`SwitchNotes`) say what each worker was told last and what its connection
accepted last. Outside a switch a worker runs the protocol in force exactly where the two agree.
-/

namespace LiveIsolation

/-- The protocol that each worker was told last, and the one whose level its connection
accepted last. -/
structure SwitchNotes where
  told : Nat → Option Protocol := fun _ => none
  accepted : Nat → Option Protocol := fun _ => none

namespace SwitchNotes

/-- A worker is told a protocol, and its connection accepts the level or not. -/
def hear (n : SwitchNotes) (id : Nat) (p : Protocol) (accepted : Bool) : SwitchNotes where
  told := Function.update n.told id (some p)
  accepted := if accepted then Function.update n.accepted id (some p) else n.accepted

end SwitchNotes

/-- The protocol that a worker is told if it leaves its boundary. -/
def Barrier.tellsLeaving (b : Barrier) (id : Nat) : Option Protocol :=
  match b.leave id with
  | .ok (told, _) => told
  | .error _ => none

/-- A worker is told the next protocol if the switch waits for it to finish. -/
theorem Barrier.tellsLeaving_eq (b : Barrier) (id : Nat) :
    b.tellsLeaving id = (b.marks? id).bind fun m =>
      if b.phase = .awaitingFinished ∧ m.finished = false then some b.next else none := by
  simp only [tellsLeaving, leave]
  cases b.marks? id with
  | none => rfl
  | some m =>
      by_cases h : b.phase = .awaitingFinished ∧ m.finished = false
      · simp only [if_pos h, Option.bind_some]
      · simp only [if_neg h, Option.bind_some]

namespace Engine

/-- The worker's last call is stopped at the boundary. -/
def stopped (e : Engine) (id : Nat) : Bool :=
  match (e.worker? id).bind (·.blocked) with
  | some (.atBoundary ..) => true
  | _ => false

/-- The worker that an action tells a protocol, and the protocol. -/
def tells? (e : Engine) : EngineAction → Option (Nat × Protocol)
  | .connect id =>
    match e.barrier.register id with
    | .ok (start, _) => some (id, start)
    | .error _ => none
  | .finish id _ =>
    if (e.worker? id).isNone || e.busy id then none
    else
      match e.barrier.enter id with
      | .ok (some _, b) => (b.tellsLeaving id).map (id, ·)
      | _ => none
  | .resume id =>
    if id ∈ e.barrier.stopped ∧ e.barrier.phase ≠ .awaitingReady ∧ e.stopped id then
      (e.barrier.tellsLeaving id).map (id, ·)
    else none
  | _ => none

/-- The store accepts a level that is asked for over a link. -/
def acceptsOver (e : Engine) (l : Link) : Bool :=
  !e.store.unavailable && !l.failing.contains .isolation

/-- The store accepts the level that is asked for in an action. A worker that is connected asks
over a link that fails nothing. -/
def accepts (e : Engine) : EngineAction → Bool
  | .connect _ => !e.store.unavailable
  | .finish id _ | .resume id => (e.worker? id).any fun w => e.acceptsOver w.link
  | _ => false

/-- The notes after an action. -/
def note (e : Engine) (n : SwitchNotes) (a : EngineAction) : SwitchNotes :=
  match e.tells? a with
  | some (id, p) => n.hear id p (e.accepts a)
  | none => n

/-- The notes after a turn in which all calls that it starts come to the boundary. A commit during
which the store comes and goes asks for a level at the boundary only. -/
def noteTurn (e : Engine) (n : SwitchNotes) : Turn → SwitchNotes
  | .plain (.action a) => e.note n a
  | .plain _ => n
  | .commit id _ downAtBoundary =>
    { e with store := e.storeWhen downAtBoundary }.note n (.finish id .commit)

/-- The notes of some turns. -/
def notes (e : Engine) (n : SwitchNotes) : List Turn → SwitchNotes
  | [] => n
  | turn :: rest => (e.turn turn).2.notes (e.noteTurn n turn) rest

end Engine

/-- What a switch sees of a worker. -/
structure Tag where
  id : Nat
  connection : Nat
  protocol : Protocol
  gate : Option Nat

def Worker.tag (w : Worker) : Tag := ⟨w.id, w.link.connection.id, w.protocol, w.link.permits⟩

namespace Engine

variable {e e' e₁ : Engine} {w w' : Worker} {n : SwitchNotes} {id : Nat}

def tag? (e : Engine) (id : Nat) : Option Tag := (e.worker? id).map Worker.tag

theorem tag?_put (e : Engine) (w : Worker) (id : Nat) :
    (e.put w).tag? id = if id = w.id then some w.tag else e.tag? id := by
  simp only [tag?]
  rw [worker?_put]
  split <;> rfl

theorem tag?_of_worker? (h : e.worker? id = some w) : e.tag? id = some w.tag := by
  rw [tag?, h, Option.map_some]

theorem stopped_eq_true :
    e.stopped id = true ↔
      ∃ w call result, e.worker? id = some w ∧ w.blocked = some (.atBoundary call result) := by
  simp only [stopped]
  constructor
  · intro h
    split at h
    · rename_i call result hblocked
      obtain ⟨w, hw, hw'⟩ := Option.bind_eq_some_iff.1 hblocked
      exact ⟨w, call, result, hw, hw'⟩
    · cases h
  · rintro ⟨w, call, result, hw, hblocked⟩
    rw [hw, Option.bind_some, hblocked]

/-- The notes after a worker has left its boundary. -/
def notesLeaving (e : Engine) (n : SwitchNotes) (w : Worker) : SwitchNotes :=
  match e.barrier.tellsLeaving w.id with
  | some p => n.hear w.id p (e.acceptsOver w.link)
  | none => n

theorem acceptsOver_eq_true {l : Link} :
    e.acceptsOver l = true ↔ .isolation ∉ l.failing ∧ e.store.unavailable = false := by
  simp [acceptsOver, and_comm]

/-- Two engines look the same to a switch. -/
structure Aside (e e' : Engine) : Prop where
  barrier : e'.barrier = e.barrier
  tags : ∀ id, e'.tag? id = e.tag? id
  levels : ∀ c, e'.store.level? c = e.store.level? c
  connections : e'.store.nextConnection = e.store.nextConnection

theorem Aside.refl (e : Engine) : e.Aside e := ⟨rfl, fun _ => rfl, fun _ => rfl, rfl⟩

theorem Aside.trans {e'' : Engine} (h : e.Aside e') (h' : e'.Aside e'') : e.Aside e'' where
  barrier := h'.barrier.trans h.barrier
  tags id := (h'.tags id).trans (h.tags id)
  levels c := (h'.levels c).trans (h.levels c)
  connections := h'.connections.trans h.connections

/-- A worker is exchanged for one that looks the same to a switch. -/
theorem Aside.put (h : e.Aside e') (hw : e.tag? id = some w.tag) (hid : w.id = id) :
    e.Aside (e'.put w) where
  barrier := h.barrier
  tags i := by
    rw [tag?_put]
    split
    · rename_i hi
      rw [hi, hid, hw]
    · exact h.tags i
  levels := h.levels
  connections := h.connections

/-- The notes agree with the engine, and what a worker was told is what the barrier counts on. -/
structure Tracks (e : Engine) (n : SwitchNotes) : Prop where
  joined : ∀ id, (e.barrier.marks? id).isSome = true → (e.tag? id).isSome = true
  id_eq : ∀ id g, e.tag? id = some g → g.id = id
  gate : ∀ id g, e.tag? id = some g → g.gate = none
  connection_lt : ∀ id g, e.tag? id = some g → g.connection < e.store.nextConnection
  connection_inj : ∀ i j g k, e.tag? i = some g → e.tag? j = some k →
    g.connection = k.connection → i = j
  level : ∀ id g, e.tag? id = some g → e.store.level? g.connection = some g.protocol.level
  accepted : ∀ id g, e.tag? id = some g → n.accepted id = some g.protocol
  stable : e.barrier.phase = .stable →
    ∀ id m, e.barrier.marks? id = some m → n.told id = some e.barrier.current
  finished : e.barrier.phase ≠ .stable →
    ∀ id m, e.barrier.marks? id = some m → m.finished = true → n.told id = some e.barrier.next

namespace Tracks

theorem aside (h : e.Tracks n) (ha : e.Aside e') : e'.Tracks n where
  joined id hm := by
    rw [ha.barrier] at hm
    rw [ha.tags]
    exact h.joined id hm
  id_eq id g hg := h.id_eq id g (ha.tags id ▸ hg)
  gate id g hg := h.gate id g (ha.tags id ▸ hg)
  connection_lt id g hg := by
    rw [ha.connections]
    exact h.connection_lt id g (ha.tags id ▸ hg)
  connection_inj i j g k hg hk := h.connection_inj i j g k (ha.tags i ▸ hg) (ha.tags j ▸ hk)
  level id g hg := by
    rw [ha.levels]
    exact h.level id g (ha.tags id ▸ hg)
  accepted id g hg := h.accepted id g (ha.tags id ▸ hg)
  stable hphase := by
    rw [ha.barrier] at hphase ⊢
    exact h.stable hphase
  finished hphase := by
    rw [ha.barrier] at hphase ⊢
    exact h.finished hphase

/-- The barrier changes, and what workers were told is still what it counts on. -/
theorem withBarrier {n' : SwitchNotes} (h : e.Tracks n) {b : Barrier}
    (haccepted : n'.accepted = n.accepted)
    (hjoined : ∀ id, (b.marks? id).isSome = true → (e.tag? id).isSome = true)
    (hstable : b.phase = .stable →
      ∀ id m, b.marks? id = some m → n'.told id = some b.current)
    (hfinished : b.phase ≠ .stable →
      ∀ id m, b.marks? id = some m → m.finished = true → n'.told id = some b.next) :
    Tracks { e with barrier := b } n' where
  joined := hjoined
  id_eq := h.id_eq
  gate := h.gate
  connection_lt := h.connection_lt
  connection_inj := h.connection_inj
  level := h.level
  accepted id g hg := by
    rw [haccepted]
    exact h.accepted id g hg
  stable := hstable
  finished := hfinished

/-- Nothing is told where the barrier keeps its marks and its phase. -/
theorem withStopped (h : e.Tracks n) (ids : List Nat) : (e.withStopped ids).Tracks n :=
  h.withBarrier rfl h.joined h.stable h.finished

/-- A worker that is not finished is marked anew. -/
theorem withMark (h : e.Tracks n) {m k : SwitchMarks} {ids : List Nat}
    (hm : e.barrier.marks? id = some m) (hfinished : k.finished = m.finished) :
    Tracks { e with barrier := { e.barrier.mark id k with stopped := ids } } n := by
  have hmarks : ∀ i, Barrier.marks? { e.barrier.mark id k with stopped := ids } i =
      if i = id then some k else e.barrier.marks? i :=
    fun i => Barrier.marks?_mark e.barrier id i k
  refine h.withBarrier rfl ?_ ?_ ?_
  · intro i hi
    rw [hmarks] at hi
    split at hi
    · rename_i he
      exact h.joined i (he ▸ Option.isSome_iff_exists.2 ⟨m, hm⟩)
    · exact h.joined i hi
  · intro hstable i x hx
    rw [hmarks] at hx
    split at hx
    · rename_i hi
      exact h.stable hstable i m (hi ▸ hm)
    · exact h.stable hstable i x hx
  · intro hne i x hx hx'
    rw [hmarks] at hx
    split at hx
    · rename_i hi
      have hxm : x.finished = m.finished := by
        rw [← Option.some.inj hx, hfinished]
      exact h.finished hne i m (hi ▸ hm) (hxm ▸ hx')
    · exact h.finished hne i x hx hx'

/-- The store records a protocol's level for a worker, which runs under the protocol from then
on. No other worker may use the connection. -/
theorem adopt (h : e.Tracks n) (hgate : w.link.permits = none)
    (hlt : w.link.connection.id < e.store.nextConnection)
    (halone : ∀ i g, e.tag? i = some g → g.connection = w.link.connection.id → i = w.id)
    {s : Store} {p : Protocol} (hs : w.link.setLevel e.store p.level = .ok s)
    (blocked : Option Blocked) :
    ({ e with store := s }.put { w with protocol := p, blocked }).Tracks
      { n with accepted := Function.update n.accepted w.id (some p) } := by
  obtain ⟨-, -, hs⟩ := Link.setLevel_eq_ok.1 hs
  have hlevel : ∀ c, s.level? c =
      if c = w.link.connection.id then some p.level else e.store.level? c := by
    intro c
    rw [hs]
    exact Ordered.lookup_insertWith_new _ _ c p.level e.store.levels
  have hnext : s.nextConnection = e.store.nextConnection := by
    rw [hs]
  have htag : ∀ i g, (Engine.put { e with store := s } { w with protocol := p, blocked }).tag? i =
      some g → (i = w.id ∧ g = { w.tag with protocol := p }) ∨ (i ≠ w.id ∧ e.tag? i = some g) := by
    intro i g hg
    rw [tag?_put] at hg
    split at hg
    · rename_i hi
      exact .inl ⟨hi, (Option.some.inj hg).symm⟩
    · rename_i hi
      exact .inr ⟨hi, hg⟩
  refine ⟨?_, ?_, ?_, ?_, ?_, ?_, ?_, h.stable, h.finished⟩
  · intro i hi
    rw [tag?_put]
    split
    · rfl
    · exact h.joined i hi
  · intro i g hg
    rcases htag i g hg with ⟨rfl, rfl⟩ | ⟨-, hg⟩
    · rfl
    · exact h.id_eq i g hg
  · intro i g hg
    rcases htag i g hg with ⟨rfl, rfl⟩ | ⟨-, hg⟩
    · exact hgate
    · exact h.gate i g hg
  · intro i g hg
    change g.connection < s.nextConnection
    rw [hnext]
    rcases htag i g hg with ⟨rfl, rfl⟩ | ⟨-, hg⟩
    · exact hlt
    · exact h.connection_lt i g hg
  · intro i j g k hg hk hgk
    rcases htag i g hg with ⟨rfl, rfl⟩ | ⟨-, hg⟩
    · rcases htag j k hk with ⟨rfl, rfl⟩ | ⟨-, hk⟩
      · rfl
      · exact (halone j k hk hgk.symm).symm
    · rcases htag j k hk with ⟨rfl, rfl⟩ | ⟨-, hk⟩
      · exact halone i g hg hgk
      · exact h.connection_inj i j g k hg hk hgk
  · intro i g hg
    change s.level? g.connection = _
    rw [hlevel]
    rcases htag i g hg with ⟨rfl, rfl⟩ | ⟨hi, hg⟩
    · exact if_pos rfl
    · have hne : g.connection ≠ w.link.connection.id := fun hc => hi (halone i g hg hc)
      rw [if_neg hne]
      exact h.level i g hg
  · intro i g hg
    change Function.update n.accepted w.id (some p) i = _
    rw [Function.update_apply]
    rcases htag i g hg with ⟨rfl, rfl⟩ | ⟨hi, hg⟩
    · exact if_pos rfl
    · rw [if_neg hi]
      exact h.accepted i g hg

/-- The barrier tells a worker the next protocol. -/
theorem tell (h : e.Tracks n) {p : Protocol} {b : Barrier}
    (hb : e.barrier.leave w.id = .ok (some p, b)) :
    Tracks { e with barrier := b } (n.hear w.id p false) := by
  obtain ⟨m, hm, ⟨hphase, -, hnext, rfl⟩ | ⟨-, hnone, -⟩⟩ := Barrier.leave_eq_ok hb
  · rw [Option.some.injEq] at hnext
    subst hnext
    refine h.withBarrier rfl ?_ ?_ ?_
    · intro i hi
      rw [Barrier.marks?_mark] at hi
      split at hi
      · rename_i he
        exact h.joined i (he ▸ Option.isSome_iff_exists.2 ⟨m, hm⟩)
      · exact h.joined i hi
    · intro hstable
      change e.barrier.phase = .stable at hstable
      rw [hphase] at hstable
      cases hstable
    · intro hne i k hk hfinished
      change Function.update n.told w.id (some e.barrier.next) i = some e.barrier.next
      rw [Function.update_apply]
      rw [Barrier.marks?_mark] at hk
      split
      · rfl
      · rename_i hi
        rw [if_neg hi] at hk
        exact h.finished hne i k hk hfinished
  · cases hnone

/-- A worker leaves its boundary. -/
theorem leaving (h : e.Tracks n) (hw : e.tag? w.id = some w.tag) {boundary : Except Fault Unit}
    (hl : Leaving e w boundary e') : e'.Tracks (e.notesLeaving n w) := by
  cases hl with
  | missing f hb =>
      have hnone : e.barrier.tellsLeaving w.id = none := by simp only [Barrier.tellsLeaving, hb]
      rw [notesLeaving, hnone]
      exact h.aside ((Aside.refl e).put hw rfl)
  | untold b hb =>
      have hnone : e.barrier.tellsLeaving w.id = none := by simp only [Barrier.tellsLeaving, hb]
      obtain ⟨m, -, ⟨-, -, hsome, -⟩ | ⟨-, -, rfl⟩⟩ := Barrier.leave_eq_ok hb
      · cases hsome
      · rw [notesLeaving, hnone]
        exact h.aside ((Aside.refl e).put hw rfl)
  | denied next b f hb hlevel =>
      have htold : e.barrier.tellsLeaving w.id = some next := by
        simp only [Barrier.tellsLeaving, hb]
      have hdenied : e.acceptsOver w.link = false := by
        rw [Bool.eq_false_iff]
        intro haccepts
        obtain ⟨hthrough, havailable⟩ := acceptsOver_eq_true.1 haccepts
        have hok : w.link.setLevel e.store next.level = .ok _ :=
          Link.setLevel_eq_ok.2 ⟨hthrough, havailable, rfl⟩
        rw [hlevel] at hok
        cases hok
      rw [notesLeaving, htold]
      simp only [hdenied]
      exact (h.tell hb).aside ((Aside.refl _).put hw rfl)
  | switched next b store hb hlevel =>
      have htold : e.barrier.tellsLeaving w.id = some next := by
        simp only [Barrier.tellsLeaving, hb]
      have haccepted : e.acceptsOver w.link = true := by
        obtain ⟨hthrough, havailable, -⟩ := Link.setLevel_eq_ok.1 hlevel
        exact acceptsOver_eq_true.2 ⟨hthrough, havailable⟩
      rw [notesLeaving, htold]
      simp only [haccepted]
      exact (h.tell hb).adopt (h.gate _ _ hw) (h.connection_lt _ _ hw)
        (fun i g hg hc => h.connection_inj i w.id g w.tag hg hw hc) hlevel none

end Tracks

/-- A call goes on until its worker comes to the boundary, and the switch sees nothing of it. -/
structure Unseen (e : Engine) (w : Worker) (e₁ : Engine) (w₁ : Worker) : Prop where
  aside : e.Aside e₁
  tag : w₁.tag = w.tag
  failing : w₁.link.failing = w.link.failing
  available : e₁.store.unavailable = e.store.unavailable

theorem Unseen.accepts {w₁ : Worker} (h : e.Unseen w e₁ w₁) :
    e₁.acceptsOver w₁.link = e.acceptsOver w.link := by
  simp only [acceptsOver, h.failing, h.available]

/-- What an engine keeps besides its workers and its barrier is not seen by a switch. -/
theorem unseen_of_eq {w₁ : Worker} {locks : LockTable} {counters : Counters} {number : Nat}
    {rows : List (Place × Row)} {commits : Nat} (htag : w₁.tag = w.tag)
    (hfailing : w₁.link.failing = w.link.failing) :
    e.Unseen w
      { e with
        locks, counters, nextTransaction := number
        store := { e.store with rows, commits } } w₁ :=
  ⟨⟨rfl, fun _ => rfl, fun _ => rfl, rfl⟩, htag, hfailing, rfl⟩

theorem tag_rollback (w : Worker) (current : Option OpenTransaction) :
    Worker.tag { w with link := w.link.rollback.2, current } = w.tag ∧
      w.link.rollback.2.failing = w.link.failing := by
  obtain ⟨writes, h⟩ := w.link.rollback_snd
  rw [h]
  exact ⟨rfl, rfl⟩

theorem Ending.unseen {result : Except Fault Unit} {w₁ : Worker}
    (h : Ending e w result e₁ w₁) (hgate : w.link.permits = none) : e.Unseen w e₁ w₁ := by
  have htag : ∀ link, w.link.Emptied link →
      Worker.tag { w with link, current := none } = w.tag := by
    intro link hlink
    simp only [Worker.tag, hlink.connection, hlink.gate hgate, hgate]
  cases h with
  | withdrawn f locks counters link hlink _ _ => exact unseen_of_eq (htag link hlink) hlink.failing
  | applied _ locks counters link hlink _ _ _ =>
      rw [Store.writeAll_eq]
      exact unseen_of_eq (htag link hlink) hlink.failing

/-- The store may become available or unavailable before the worker comes to its boundary. -/
theorem Unseen.storeWhen {w₁ : Worker} (h : e.Unseen w e₁ w₁) (unavailable : Bool) :
    Unseen { e with store := e.storeWhen unavailable } w
      { e₁ with store := e₁.storeWhen unavailable } w₁ where
  aside := ⟨h.aside.barrier, h.aside.tags, h.aside.levels, h.aside.connections⟩
  tag := h.tag
  failing := h.failing
  available := rfl

namespace Tracks

/-- Nobody is told anything by a worker that is not there or is busy. -/
theorem note_finish (h : e.worker? id = none ∨ e.busy id = true) (n : SwitchNotes)
    (call : EndCall) : e.note n (.finish id call) = n := by
  have htells : e.tells? (.finish id call) = none := by
    simp only [tells?]
    rcases h with h | h
    · simp only [h, Option.isNone_none, Bool.true_or, if_true]
    · simp only [h, Bool.or_true, if_true]
  simp only [note, htells]

/-- A worker whose call the switch has not seen comes to its boundary. -/
theorem passBoundary {w₁ : Worker} (h : e.Tracks n) (hw : e.worker? id = some w)
    (hunseen : e.Unseen w e₁ w₁) (hbusy : e.busy id = false) (call call' : EndCall)
    (result : Except Fault Unit) :
    (e₁.passBoundary w₁ call result).2.Tracks (e.note n (.finish id call')) := by
  have htag := tag?_of_worker? hw
  have hid : w.id = id := h.id_eq id w.tag htag
  have hid₁ : w₁.id = id := (congrArg Tag.id hunseen.tag).trans hid
  have htag₁ : e₁.tag? w₁.id = some w₁.tag := by
    rw [hid₁, hunseen.aside.tags, htag, hunseen.tag]
  have h₁ : e₁.Tracks n := h.aside hunseen.aside
  obtain ⟨f, henter, -, he⟩ | ⟨b, henter, -, he⟩ | ⟨required, boundary, henter, -, hleaving⟩ :=
    passBoundary_inv (Prod.eta (e₁.passBoundary w₁ call result)).symm
  · rw [hunseen.aside.barrier, hid₁] at henter
    have hnote : e.tells? (.finish id call') = none := by simp [tells?, hw, hbusy, henter]
    rw [he, note, hnote]
    exact h₁.aside ((Aside.refl e₁).put htag₁ rfl)
  · rw [he]
    obtain ⟨m, hm, ⟨hphase, -, -, rfl⟩ | ⟨-, hsome, -⟩⟩ := Barrier.enter_eq_ok henter
    · rw [hunseen.aside.barrier, hid₁] at henter
      have hnote : e.tells? (.finish id call') = none := by simp [tells?, hw, hbusy, henter]
      rw [note, hnote]
      refine Tracks.aside (h₁.withMark (k := { m with ready := true }) hm rfl)
        ((Aside.refl _).put ?_ rfl)
      exact htag₁
    · cases hsome
  · rw [hunseen.aside.barrier, hid₁] at henter
    have hnote : e.tells? (.finish id call') = (e.barrier.tellsLeaving id).map (id, ·) := by
      simp [tells?, hw, hbusy, henter]
    have hnotes : e.note n (.finish id call') = e₁.notesLeaving n w₁ := by
      rw [note, hnote, notesLeaving, hunseen.aside.barrier, hid₁, hunseen.accepts]
      cases e.barrier.tellsLeaving id with
      | none => rfl
      | some p => simp [accepts, hw]
    rw [hnotes]
    exact h₁.leaving htag₁ hleaving

theorem storeWhen (h : e.Tracks n) (unavailable : Bool) :
    Tracks { e with store := e.storeWhen unavailable } n :=
  h.aside ⟨rfl, fun _ => rfl, fun _ => rfl, rfl⟩

/-- While such a worker comes to its boundary the store is available or not. -/
theorem passBoundaryWhen {w₁ : Worker} (h : e.Tracks n) (hw : e.worker? id = some w)
    (hunseen : e.Unseen w e₁ w₁) (hbusy : e.busy id = false) (result : Except Fault Unit)
    (unavailable : Bool) :
    (e₁.passBoundaryWhen w₁ .commit result unavailable).2.Tracks
      ({ e with store := e.storeWhen unavailable }.note n (.finish id .commit)) := by
  have hpassed := (h.storeWhen unavailable).passBoundary hw (hunseen.storeWhen unavailable) hbusy
    .commit .commit result
  exact hpassed.storeWhen e₁.store.unavailable

/-- A worker commits while the store comes and goes. -/
theorem startCommitDuring (h : e.Tracks n) (hw : e.worker? id = some w)
    (hbusy : e.busy id = false) (down : Nat → Bool) (downAtBoundary : Bool) :
    (e.startCommitDuring w down downAtBoundary).2.Tracks
      ({ e with store := e.storeWhen downAtBoundary }.note n (.finish id .commit)) := by
  rcases e.startCommitDuring_cases w down downAtBoundary with
    ⟨-, hstarted⟩ | ⟨t, result, e₁, w₁, -, hcommit, hstarted⟩
  · rw [hstarted]
    exact h.passBoundaryWhen hw ⟨.refl e, rfl, rfl, rfl⟩ hbusy (.ok ()) downAtBoundary
  · rw [hstarted]
    have hgate := h.gate id w.tag (tag?_of_worker? hw)
    exact h.passBoundaryWhen hw ((commitDuring_ends e w t down hcommit).unseen hgate) hbusy result
      downAtBoundary

theorem finish (h : e.Tracks n) (id : Nat) (call : EndCall) :
    (e.take (.finish id call)).2.Tracks (e.note n (.finish id call)) := by
  cases hbusy : e.busy id with
  | true =>
      simp only [take, hbusy, if_true, note_finish (.inr hbusy)]
      exact h
  | false =>
      cases hw : e.worker? id with
      | none =>
          simp only [take, hbusy, Bool.false_eq_true, if_false, note_finish (.inl hw),
            start_of_none hw]
          exact h
      | some w =>
          have hgate : w.link.permits = none := h.gate id w.tag (tag?_of_worker? hw)
          simp only [take, hbusy, Bool.false_eq_true, if_false]
          cases call with
          | commit =>
              rw [start_commit hw, ← startCommitDuring_const hgate]
              exact h.startCommitDuring hw hbusy (fun _ => e.store.unavailable)
                e.store.unavailable
          | rollback =>
              rw [start_rollback hw]
              rcases startRollback_inv e w with ⟨-, hrollback⟩ | ⟨t, -, hrollback⟩
              · rw [hrollback]
                exact h.passBoundary hw ⟨.refl e, rfl, rfl, rfl⟩ hbusy .rollback .rollback (.ok ())
              · rw [hrollback]
                obtain ⟨htag, hfailing⟩ := tag_rollback w none
                exact h.passBoundary hw (unseen_of_eq htag hfailing) hbusy .rollback .rollback _

theorem resume (h : e.Tracks n) (id : Nat) :
    (e.take (.resume id)).2.Tracks (e.note n (.resume id)) := by
  by_cases hgo : id ∈ e.barrier.stopped ∧ e.barrier.phase ≠ .awaitingReady
  · have h₁ := h.withStopped (e.barrier.stopped.erase id)
    simp only [take, if_pos hgo]
    rcases (e.withStopped (e.barrier.stopped.erase id)).resume_inv id with
      ⟨w, call, result, hw, hblocked, hresume⟩ | ⟨hnot, hresume⟩
    · have hw : e.worker? id = some w := hw
      have htag := tag?_of_worker? hw
      have hid : w.id = id := h.id_eq id w.tag htag
      have hstopped : e.stopped id = true := by simp [stopped, hw, hblocked]
      have htells : (e.withStopped (e.barrier.stopped.erase id)).barrier.tellsLeaving id =
          e.barrier.tellsLeaving id := by
        rw [Barrier.tellsLeaving_eq, Barrier.tellsLeaving_eq]
        rfl
      have hnotes : e.note n (.resume id) =
          (e.withStopped (e.barrier.stopped.erase id)).notesLeaving n w := by
        simp only [note, tells?, if_pos (⟨hgo.1, hgo.2, hstopped⟩ :
          id ∈ e.barrier.stopped ∧ e.barrier.phase ≠ .awaitingReady ∧ e.stopped id), notesLeaving,
          hid, htells]
        cases e.barrier.tellsLeaving id with
        | none => rfl
        | some p =>
            simp only [Option.map_some, accepts, hw, Option.any_some]
            rfl
      obtain ⟨boundary, -, hleaving⟩ := leave_inv (Prod.eta
        ((e.withStopped (e.barrier.stopped.erase id)).leave w call result)).symm
      rw [hresume, hnotes]
      exact h₁.leaving (hid ▸ htag) hleaving
    · have hnote : e.tells? (.resume id) = none := by
        have hfree : e.stopped id = false := by
          rw [Bool.eq_false_iff]
          intro hstopped
          exact hnot (stopped_eq_true.1 hstopped)
        simp [tells?, hfree]
      rw [hresume, note, hnote]
      exact h₁
  · have hnote : e.tells? (.resume id) = none := by
      simp only [tells?]
      rw [if_neg]
      rintro ⟨hmem, hphase, -⟩
      exact hgo ⟨hmem, hphase⟩
    simp only [take, if_neg hgo, note, hnote]
    exact h

/-- A statement is no concern of a switch. -/
theorem execute (h : e.Tracks n) (id : Nat) (name : String) (index : Nat) (args : List Value) :
    (e.execute id name index args).2.Tracks n := by
  cases hw : e.worker? id with
  | none =>
      rw [execute_of_none hw]
      exact h
  | some w =>
      have htag : e.tag? w.id = some w.tag := by
        have htag := tag?_of_worker? hw
        rwa [← h.id_eq id w.tag htag] at htag
      have hbegun : ∀ template, e.Aside (e.begun w template) ∧
          (e.beginner w template).tag = w.tag := by
        intro template
        obtain ⟨-, he, hw'⟩ | ⟨-, -, he, hw'⟩ := opened_eq e w template
        · rw [he, hw']
          exact ⟨.refl e, rfl⟩
        · rw [he, hw']
          exact ⟨⟨rfl, fun _ => rfl, fun _ => rfl, rfl⟩, rfl⟩
      have hput : ∀ template (e₁ : Engine) (w₁ : Worker), (e.begun w template).Aside e₁ →
          w₁.tag = (e.beginner w template).tag → e.Aside (e₁.put w₁) := by
        intro template e₁ w₁ haside htag₁
        have htags : w₁.tag = w.tag := htag₁.trans (hbegun template).2
        have hid : w₁.id = w.id := congrArg Tag.id htags
        refine ((hbegun template).1.trans haside).put ?_ hid
        rw [htag, htags]
      have hexecuted := execute_inv hw name index args
      generalize e.execute id name index args = done at hexecuted ⊢
      obtain ⟨answer, e'⟩ := done
      cases hexecuted with
      | refused f _ => exact h
      | keyless q f _ _ => exact h.aside (hput q.template _ _ (.refl _) rfl)
      | lost q key f _ _ _ =>
          refine h.aside (hput q.template _ _ ⟨rfl, fun _ => rfl, fun _ => rfl, rfl⟩ ?_)
          exact (tag_rollback (e.beginner w q.template) none).1
      | answered q key outcome link _ _ hexec =>
          refine h.aside (hput q.template _ _ (.refl _) ?_)
          obtain ⟨-, o, c, hc, -, rfl⟩ := Link.execute_eq_ok.1 hexec
          simp only [Worker.tag, Connection.id_of_execute hc]

/-- A connection has been opened. -/
theorem reconnect (h : e.Tracks n) :
    Tracks { e with store.nextConnection := e.store.nextConnection + 1 } n where
  joined := h.joined
  id_eq := h.id_eq
  gate := h.gate
  connection_lt id g hg := Nat.lt_succ_of_lt (h.connection_lt id g hg)
  connection_inj := h.connection_inj
  level := h.level
  accepted := h.accepted
  stable := h.stable
  finished := h.finished

/-- The barrier takes a worker in and tells it the protocol that it counts on. -/
theorem register (h : e.Tracks n) {start : Protocol} {b : Barrier}
    (hb : e.barrier.register id = .ok (start, b)) (accepted : Bool) :
    (b.phase = .stable → ∀ i m, b.marks? i = some m →
        (n.hear id start accepted).told i = some b.current) ∧
      (b.phase ≠ .stable → ∀ i m, b.marks? i = some m → m.finished = true →
        (n.hear id start accepted).told i = some b.next) := by
  obtain ⟨hphase, rfl, rfl⟩ | ⟨hphase, rfl, rfl⟩ := Barrier.register_eq_ok hb
  · refine ⟨?_, fun hne => absurd hphase hne⟩
    intro hstable i m hm
    rw [Barrier.marks?_mark] at hm
    change Function.update n.told id (some e.barrier.current) i = some e.barrier.current
    rw [Function.update_apply]
    split
    · rfl
    · rename_i hi
      rw [if_neg hi] at hm
      exact h.stable hstable i m hm
  · refine ⟨fun hstable => absurd hstable hphase, ?_⟩
    intro hne i m hm hfinished
    rw [Barrier.marks?_mark] at hm
    change Function.update n.told id (some e.barrier.next) i = some e.barrier.next
    rw [Function.update_apply]
    split
    · rfl
    · rename_i hi
      rw [if_neg hi] at hm
      exact h.finished hne i m hm hfinished

/-- A worker is taken out of the barrier. -/
theorem deregister (h : e.Tracks n) {n' : SwitchNotes} (haccepted : n'.accepted = n.accepted)
    {b : Barrier} (hmarks : ∀ i, i ≠ id → b.marks? i = e.barrier.marks? i)
    (hstable : b.phase = .stable → ∀ i m, b.marks? i = some m → n'.told i = some b.current)
    (hfinished : b.phase ≠ .stable →
      ∀ i m, b.marks? i = some m → m.finished = true → n'.told i = some b.next) :
    Tracks { e with barrier := b.deregister id } n' := by
  refine h.withBarrier haccepted ?_ ?_ ?_
  · intro i hi
    rw [Barrier.marks?_deregister] at hi
    split at hi
    · cases hi
    · rename_i hne
      rw [hmarks i hne] at hi
      exact h.joined i hi
  · intro hphase i m hm
    rw [Barrier.marks?_deregister] at hm
    split at hm
    · cases hm
    · exact hstable hphase i m hm
  · intro hphase i m hm
    rw [Barrier.marks?_deregister] at hm
    split at hm
    · cases hm
    · exact hfinished hphase i m hm

/-- A worker that the barrier does not know is disconnected. -/
theorem remove (h : e.Tracks n) (hid : e.barrier.marks? id = none) :
    Tracks { e with workers := e.workers.filter (·.1 != id) } n := by
  have htag : ∀ i, tag? { e with workers := e.workers.filter (·.1 != id) } i =
      if i = id then none else e.tag? i := by
    intro i
    unfold tag? worker?
    dsimp only
    rw [Ordered.lookup_filter_key (· != id)]
    by_cases hi : i = id <;> simp [hi]
  have hold : ∀ i g, tag? { e with workers := e.workers.filter (·.1 != id) } i = some g →
      e.tag? i = some g := by
    intro i g hg
    rw [htag] at hg
    split at hg
    · cases hg
    · exact hg
  refine ⟨?_, ?_, ?_, ?_, ?_, ?_, ?_, h.stable, h.finished⟩
  · intro i hi
    rw [htag]
    split
    · rename_i he
      rw [he, show Barrier.marks? _ id = none from hid] at hi
      cases hi
    · exact h.joined i hi
  · exact fun i g hg => h.id_eq i g (hold i g hg)
  · exact fun i g hg => h.gate i g (hold i g hg)
  · exact fun i g hg => h.connection_lt i g (hold i g hg)
  · exact fun i j g k hg hk => h.connection_inj i j g k (hold i g hg) (hold j k hk)
  · exact fun i g hg => h.level i g (hold i g hg)
  · exact fun i g hg => h.accepted i g (hold i g hg)

theorem connect (h : e.Tracks n) (id : Nat) :
    (e.connect id [] none).2.Tracks (e.note n (.connect id)) := by
  have hfresh := h.reconnect
  cases hb : e.barrier.register id with
  | error f =>
      have hnote : e.tells? (.connect id) = none := by simp only [tells?, hb]
      simp only [Engine.connect, Store.connect, hb, note, hnote]
      exact hfresh
  | ok answer =>
      obtain ⟨p, b⟩ := answer
      have hnote : e.tells? (.connect id) = some (id, p) := by simp only [tells?, hb]
      obtain ⟨hstable, hfinished⟩ := h.register hb (!e.store.unavailable)
      have hmarks : ∀ i, i ≠ id → b.marks? i = e.barrier.marks? i := by
        intro i hi
        obtain ⟨-, -, rfl⟩ | ⟨-, -, rfl⟩ := Barrier.register_eq_ok hb
        · rw [Barrier.marks?_mark, if_neg hi]
        · rw [Barrier.marks?_mark, if_neg hi]
      simp only [Engine.connect, Store.connect, hb, note, hnote, accepts]
      split
      · rename_i f hlevel
        have hunavailable : e.store.unavailable = true := by
          by_contra havailable
          rw [Bool.not_eq_true] at havailable
          obtain ⟨s, hs⟩ : ∃ s, Link.setLevel
              { connection := { id := e.store.nextConnection }, failing := [], permits := none }
              { e.store with nextConnection := e.store.nextConnection + 1 } p.level = .ok s :=
            ⟨_, Link.setLevel_eq_ok.2 ⟨List.not_mem_nil, havailable, rfl⟩⟩
          rw [hlevel] at hs
          cases hs
        refine hfresh.deregister ?_ hmarks hstable hfinished
        rw [hunavailable]
        rfl
      · rename_i s hlevel
        have havailable : e.store.unavailable = false := (Link.setLevel_eq_ok.1 hlevel).2.1
        rw [havailable] at hstable hfinished ⊢
        have halone : ∀ i g, e.tag? i = some g → g.connection = e.store.nextConnection →
            i = id := by
          intro i g hg hc
          exact absurd (h.connection_lt i g hg) (by omega)
        have hadmitted := hfresh.adopt (w :=
            { id, protocol := p
              link := { connection := { id := e.store.nextConnection }, permits := none } }) rfl
          (Nat.lt_succ_self e.store.nextConnection) halone hlevel none
        refine hadmitted.withBarrier rfl ?_ hstable hfinished
        intro i hi
        rw [tag?_put]
        split
        · rfl
        · rename_i hne
          rw [hmarks i hne] at hi
          exact h.joined i hi

/-- A worker leaves for good. -/
theorem close (h : e.Tracks n) (id : Nat) : (e.close id).2.Tracks n := by
  cases hw : e.worker? id with
  | none =>
      simp only [Engine.close, withWorker, hw]
      exact h
  | some w =>
      have hleft : Tracks { e with
          barrier := e.barrier.deregister id
          workers := e.workers.filter (·.1 != id) } n :=
        (h.deregister rfl (fun _ _ => rfl) h.stable h.finished).remove (by
          change (e.barrier.deregister id).marks? id = none
          rw [Barrier.marks?_deregister, if_pos rfl])
      simp only [Engine.close, withWorker, hw]
      cases w.current with
      | none => exact hleft
      | some t => exact hleft.aside ⟨rfl, fun _ => rfl, fun _ => rfl, rfl⟩

theorem beginRequest (h : e.Tracks n) : (e.take .beginRequest).2.Tracks n := by
  cases hb : e.barrier.begin? with
  | none =>
      simp only [take, hb]
      exact h
  | some begun =>
      obtain ⟨report, b⟩ := begun
      simp only [take, hb]
      obtain ⟨hphase, target, queue, -, ⟨-, -, rfl⟩ | ⟨-, -, rfl⟩⟩ := Barrier.begin?_eq_some hb
      · exact h.withBarrier rfl h.joined h.stable h.finished
      · refine h.withBarrier rfl ?_ ?_ ?_
        · intro i hi
          change (e.barrier.clearMarks.marks? i).isSome = true at hi
          rw [Barrier.marks?_clearMarks, Option.isSome_map] at hi
          exact h.joined i hi
        · intro hstable
          cases hstable
        · intro _ i m hm hfinished
          change e.barrier.clearMarks.marks? i = some m at hm
          rw [Barrier.marks?_clearMarks] at hm
          obtain ⟨k, -, rfl⟩ := Option.map_eq_some_iff.1 hm
          cases hfinished

theorem advance (h : e.Tracks n) : (e.take .advance).2.Tracks n := by
  cases hb : e.barrier.advance? with
  | none =>
      simp only [take, hb]
      exact h
  | some moved =>
      obtain ⟨report, b⟩ := moved
      simp only [take, hb]
      obtain ⟨hphase, -, rfl⟩ | ⟨hphase, hall, rfl⟩ := Barrier.advance?_eq_some hb
      · have hne : e.barrier.phase ≠ .stable := by simp [hphase]
        refine h.withBarrier rfl h.joined ?_ fun _ => h.finished hne
        intro hstable
        cases hstable
      · have hne : e.barrier.phase ≠ .stable := by simp [hphase]
        refine h.withBarrier rfl ?_ ?_ ?_
        · intro i hi
          change (e.barrier.clearMarks.marks? i).isSome = true at hi
          rw [Barrier.marks?_clearMarks, Option.isSome_map] at hi
          exact h.joined i hi
        · intro _ i m hm
          change e.barrier.clearMarks.marks? i = some m at hm
          rw [Barrier.marks?_clearMarks] at hm
          obtain ⟨k, hk, -⟩ := Option.map_eq_some_iff.1 hm
          exact h.finished hne i k hk (Barrier.finished_of_allFinished hall hk)
        · intro hne'
          exact absurd rfl hne'

theorem take (h : e.Tracks n) (a : EngineAction) : (e.take a).2.Tracks (e.note n a) := by
  cases a with
  | connect id => exact h.connect id
  | execute id name index args =>
      change (Engine.take e (.execute id name index args)).2.Tracks n
      cases hbusy : e.busy id with
      | true =>
          rw [take_execute_of_busy hbusy]
          exact h
      | false =>
          rw [take_execute hbusy]
          exact h.execute id name index args
  | finish id call => exact h.finish id call
  | close id =>
      change (Engine.take e (.close id)).2.Tracks n
      cases hbusy : e.busy id with
      | true =>
          simp only [Engine.take, hbusy, if_true]
          exact h
      | false =>
          simp only [Engine.take, hbusy, Bool.false_eq_true, if_false]
          exact h.close id
  | request target => exact h.withBarrier rfl h.joined h.stable h.finished
  | seed place value => exact h.aside ⟨rfl, fun _ => rfl, fun _ => rfl, rfl⟩
  | outage on => exact h.aside ⟨rfl, fun _ => rfl, fun _ => rfl, rfl⟩
  | fail id calls =>
      change (e.fail id calls).Tracks n
      simp only [Engine.fail]
      cases hw : e.worker? id with
      | none => exact h
      | some w =>
          have htag := tag?_of_worker? hw
          rw [← h.id_eq id w.tag htag] at htag
          exact h.aside ((Aside.refl e).put htag rfl)
  | beginRequest => exact h.beginRequest
  | advance => exact h.advance
  | resume id => exact h.resume id

theorem turn (h : e.Tracks n) {turn : Turn} (hturn : turn.Apart) :
    (e.turn turn).2.Tracks (e.noteTurn n turn) := by
  cases turn with
  | plain happening =>
      cases happening with
      | action a => exact h.take a
      | _ => exact absurd hturn id
  | commit id down downAtBoundary =>
      rcases e.turn_commit_cases id down downAtBoundary with
        ⟨hidle, hturn⟩ | ⟨w, hw, hfree, -, hturn⟩
      · have hnobody : e.worker? id = none ∨ e.busy id = true := by
          cases hw : e.worker? id with
          | none => exact .inl rfl
          | some w =>
              have hgate : w.link.permits = none := h.gate id w.tag (tag?_of_worker? hw)
              have hblocked : w.blocked.isSome = true :=
                Option.isSome_iff_ne_none.2 ((hidle w hw).resolve_right (not_not.2 hgate))
              exact .inr (by simp only [busy, hw, Option.any_some, hblocked])
        have hquiet : e.noteTurn n (.commit id down downAtBoundary) = n :=
          note_finish (e := { e with store := e.storeWhen downAtBoundary }) hnobody n _
        rw [hturn, hquiet]
        exact h
      · have hbusy : e.busy id = false := by
          simp only [busy, hw, Option.any_some, hfree, Option.isSome_none]
        rw [hturn]
        exact h.startCommitDuring hw hbusy down downAtBoundary

end Tracks

theorem Tracks.through (h : e.Tracks n) {turns : List Turn} (hturns : ∀ turn ∈ turns, turn.Apart) :
    (e.through turns).Tracks (e.notes n turns) := by
  induction turns generalizing e n with
  | nil => exact h
  | cons turn rest ih =>
      exact ih (h.turn (hturns turn List.mem_cons_self))
        fun later hlater => hturns later (List.mem_cons_of_mem _ hlater)

/-- An engine without workers has nothing to note. -/
theorem tracks_create {workload : Workload} {config : EngineConfig} {keys : KeyRule}
    (h : create workload config keys = .ok e) : e.Tracks {} := by
  obtain ⟨protocol, locks, -, -, rfl⟩ := create_eq_ok h
  refine ⟨?_, ?_, ?_, ?_, ?_, ?_, ?_, ?_, ?_⟩
  · intro id hid
    cases hid
  · intro id g hg
    cases hg
  · intro id g hg
    cases hg
  · intro id g hg
    cases hg
  · intro i j g k hg
    cases hg
  · intro id g hg
    cases hg
  · intro id g hg
    cases hg
  · intro _ id m hm
    cases hm
  · intro _ id m hm
    cases hm

/-- After any run, each worker of the barrier is connected, and the level that the store has
recorded last for its connection is the one of its protocol. Outside a switch, this is the
protocol in force, with its level, if and only if the store has accepted what the barrier told
the worker last. -/
theorem runs_current_iff_accepted {workload : Workload} {config : EngineConfig} {keys : KeyRule}
    {e : Engine} (hcreate : create workload config keys = .ok e) {turns : List Turn}
    (hturns : ∀ turn ∈ turns, turn.Apart)
    (hstable : (e.through turns).barrier.phase = .stable) {id : Nat}
    (hid : ((e.through turns).barrier.marks? id).isSome = true) :
    ∃ w, (e.through turns).worker? id = some w ∧
      (e.through turns).store.level? w.link.connection.id = some w.protocol.level ∧
      ((w.protocol = (e.through turns).barrier.current ∧
          (e.through turns).store.level? w.link.connection.id =
            some (e.through turns).barrier.current.level) ↔
        (e.notes {} turns).accepted id = (e.notes {} turns).told id) := by
  have h := (tracks_create hcreate).through hturns
  obtain ⟨m, hm⟩ := Option.isSome_iff_exists.1 hid
  obtain ⟨g, hg⟩ := Option.isSome_iff_exists.1 (h.joined id hid)
  obtain ⟨w, hw, rfl⟩ := Option.map_eq_some_iff.1 hg
  have hlevel := h.level id w.tag hg
  refine ⟨w, hw, hlevel, ?_⟩
  rw [h.accepted id w.tag hg, h.stable hstable id m hm, Option.some.injEq]
  constructor
  · exact fun h => h.1
  · intro hprotocol
    have hcurrent : w.protocol = (e.through turns).barrier.current := hprotocol
    exact ⟨hcurrent, hcurrent ▸ hlevel⟩

/-- A switch to snapshot isolation whose only worker comes to its boundary while the store is
available, and leaves it when the store is not. -/
def deniedSwitch : List Turn :=
  ([.connect 1, .request .snapshot, .beginRequest, .finish 1 .commit, .advance, .outage true,
    .resume 1, .advance] : List EngineAction).map fun a => .plain (.action a)

theorem denied_switch_accepted_iff :
    ∃ e, create ⟨[], ⟨0, []⟩, {}⟩ (.ofProtocol .serializable) RowKey.standard = .ok e ∧
      (∀ turn ∈ deniedSwitch, turn.Apart) ∧
      (e.through deniedSwitch).barrier.phase = .stable ∧
      ((e.through deniedSwitch).barrier.marks? 1).isSome = true ∧
      ∃ w, (e.through deniedSwitch).worker? 1 = some w ∧
        (e.through deniedSwitch).store.level? w.link.connection.id = some w.protocol.level ∧
        ((w.protocol = (e.through deniedSwitch).barrier.current ∧
            (e.through deniedSwitch).store.level? w.link.connection.id =
              some (e.through deniedSwitch).barrier.current.level) ↔
          (e.notes {} deniedSwitch).accepted 1 = (e.notes {} deniedSwitch).told 1) := by
  obtain ⟨e, hcreate, hturns, hstable, hid⟩ := exists_create ⟨[], ⟨0, []⟩, {}⟩
    (.ofProtocol .serializable) RowKey.standard
    (fun e => (∀ turn ∈ deniedSwitch, turn.Apart) ∧
      (e.through deniedSwitch).barrier.phase = .stable ∧
      ((e.through deniedSwitch).barrier.marks? 1).isSome = true) (by decide)
  exact ⟨e, hcreate, hturns, hstable, hid, runs_current_iff_accepted hcreate hturns hstable hid⟩

/-- The switch has ended, no call is under way, and the worker still has the old protocol and
the old level. -/
theorem denied_switch_keeps_protocol :
    ∃ e, create ⟨[], ⟨0, []⟩, {}⟩ (.ofProtocol .serializable) RowKey.standard = .ok e ∧
      (e.through deniedSwitch).barrier.phase = .stable ∧
      (e.through deniedSwitch).busy 1 = false ∧
      ((e.through deniedSwitch).barrier.marks? 1).isSome = true ∧
      (e.through deniedSwitch).barrier.current = .snapshot ∧
      ((e.through deniedSwitch).worker? 1).map (·.protocol) = some .serializable ∧
      (e.through deniedSwitch).store.level? 1 = some .serializable := by
  apply exists_create
  decide

end Engine

end LiveIsolation
