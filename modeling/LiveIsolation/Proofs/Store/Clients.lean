import LiveIsolation.Proofs.Store

/-!
# Clients of a store

Many clients run statements, commit and roll back over connections of their own, among rows that
are committed from outside and outages, in any order. What has come of their calls is told by
events. From the events alone follow the writes of each client that are not settled yet and the
values that each row has had, and these are what the connections have buffered and what the store
has committed: no write is lost, and none counts twice (`Chronicle.rows_account`).

## Implementation notes

Events are listed with the latest first, so that the last write of a row is the first to be found.
They are only read by statements about a run: the clients themselves know nothing of them.
-/

namespace LiveIsolation

/-- A call of a client, known by the place of its connection, or what happens to the store. -/
inductive StoreTurn where
  | connect
  | execute (client : Nat) (statement : Statement) (args : List Value)
  | commit (client : Nat)
  | rollback (client : Nat)
  | setLevel (client : Nat) (level : IsolationLevel)
  /-- A row is committed from outside. -/
  | seed (place : Place) (value : Value)
  /-- The store becomes unavailable or available again. -/
  | outage (on : Bool)
  deriving DecidableEq, Repr

inductive StoreReply where
  | connected (connection : Nat)
  | outcome (outcome : Outcome)
  | version (version : Nat)
  | done
  | failed (f : Fault)
  /-- No connection has been opened for the client. -/
  | unknownClient
  deriving DecidableEq, Repr

/-- A store with the connections to it, in the order in which they were opened. -/
structure Clients where
  store : Store
  connections : List Connection := []

namespace Clients

def connection? (c : Clients) (client : Nat) : Option Connection := c.connections[client]?

def put (c : Clients) (client : Nat) (connection : Connection) : Clients :=
  { c with connections := c.connections.set client connection }

def withClient (c : Clients) (client : Nat) (f : Connection → StoreReply × Clients) :
    StoreReply × Clients :=
  match c.connection? client with
  | some connection => f connection
  | none => (.unknownClient, c)

/-- Takes a turn. A call that fails changes nothing. -/
def take (c : Clients) : StoreTurn → StoreReply × Clients
  | .connect =>
    let (connection, store) := c.store.connect
    (.connected connection.id, { store, connections := c.connections ++ [connection] })
  | .execute client statement args => c.withClient client fun connection =>
    match connection.execute c.store statement args with
    | .ok (outcome, connection) => (.outcome outcome, c.put client connection)
    | .error f => (.failed f, c)
  | .commit client => c.withClient client fun connection =>
    match connection.commit c.store with
    | .ok (connection, store) => (.done, { c with store }.put client connection)
    | .error f => (.failed f, c)
  | .rollback client => c.withClient client fun connection =>
    (.done, c.put client connection.rollback)
  | .setLevel client level => c.withClient client fun connection =>
    match c.store.setLevel connection.id level with
    | .ok store => (.done, { c with store })
    | .error f => (.failed f, c)
  | .seed place value =>
    let (version, store) := c.store.seed place value
    (.version version, { c with store })
  | .outage on => (.done, { c with store.unavailable := on })

end Clients

/-- What a client or somebody outside has been told is done. -/
inductive StoreEvent where
  | seeded (place : Place) (value : Value)
  /-- A client has written a value, and was told a version. -/
  | wrote (client : Nat) (place : Place) (row : Row)
  | committed (client : Nat)
  | rolledBack (client : Nat)
  deriving DecidableEq, Repr

/-- The event that a turn comes to. Reads, and calls that fail, are none. -/
def Clients.event? (c : Clients) (turn : StoreTurn) : Option StoreEvent :=
  match turn, (c.take turn).1 with
  | .seed place value, _ => some (.seeded place value)
  | .execute client statement args, .outcome outcome =>
    if statement.kind.isWrite then
      match c.store.placeOf statement args, outcome.version with
      | .ok place, some version =>
        some (.wrote client place ⟨statement.writtenValue args, version⟩)
      | _, _ => none
    else none
  | .commit client, .done => some (.committed client)
  | .rollback client, .done => some (.rolledBack client)
  | _, _ => none

/-- The events of a run, the latest first. -/
abbrev StorePast := List StoreEvent

namespace StorePast

/-- The writes of a client since it last committed or rolled back, the latest first. -/
def unsettled (client : Nat) : StorePast → List (Place × Row)
  | [] => []
  | .wrote i place row :: earlier =>
    if i = client then (place, row) :: unsettled client earlier else unsettled client earlier
  | .committed i :: earlier => if i = client then [] else unsettled client earlier
  | .rolledBack i :: earlier => if i = client then [] else unsettled client earlier
  | .seeded .. :: earlier => unsettled client earlier

/-- The open transaction of a client has written a row. -/
def hasWritten (client : Nat) (p : Place) (past : StorePast) : Bool :=
  ((unsettled client past).lookup p).isSome

/-- The value that an event gives a row: a row committed from outside has its value, and a commit
gives the row the last value that its transaction has written, if there is one. -/
def given? (p : Place) (earlier : StorePast) : StoreEvent → Option Value
  | .seeded place value => if place = p then some value else none
  | .committed client => ((unsettled client earlier).lookup p).map (·.value)
  | .wrote .. => none
  | .rolledBack _ => none

/-- The values that a row has been given, the latest first. -/
def values (p : Place) : StorePast → List Value
  | [] => []
  | e :: earlier => (given? p earlier e).toList ++ values p earlier

/-- How often a row has been committed from outside. -/
def seeds (p : Place) (past : StorePast) : Nat :=
  past.countP fun
    | .seeded place _ => place == p
    | _ => false

/-- How many commits there were of transactions that had written a row at least once. -/
def commits (p : Place) : StorePast → Nat
  | [] => 0
  | .committed client :: earlier =>
    commits p earlier + if hasWritten client p earlier then 1 else 0
  | _ :: earlier => commits p earlier

/-- A row as it should be committed: it has been given its value last, and its version counts
what it has been given. -/
def row? (p : Place) (past : StorePast) : Option Row :=
  (values p past).head?.map fun value => ⟨value, (values p past).length⟩

theorem unsettled_wrote (client i : Nat) (place : Place) (row : Row) (earlier : StorePast) :
    unsettled client (.wrote i place row :: earlier) =
      if i = client then (place, row) :: unsettled client earlier else unsettled client earlier :=
  rfl

theorem unsettled_committed (client i : Nat) (earlier : StorePast) :
    unsettled client (.committed i :: earlier) =
      if i = client then [] else unsettled client earlier := rfl

theorem unsettled_rolledBack (client i : Nat) (earlier : StorePast) :
    unsettled client (.rolledBack i :: earlier) =
      if i = client then [] else unsettled client earlier := rfl

theorem values_cons (p : Place) (e : StoreEvent) (earlier : StorePast) :
    values p (e :: earlier) = (given? p earlier e).toList ++ values p earlier := rfl

/-- The version of a row counts what it has been given. -/
theorem version_row? (p : Place) (past : StorePast) :
    ((row? p past).getD {}).version = (values p past).length := by
  simp only [row?]
  cases values p past with
  | nil => rfl
  | cons v older => rfl

/-- A row that is given a value has it, and the next version. -/
theorem row?_cons (p : Place) (e : StoreEvent) (earlier : StorePast) :
    row? p (e :: earlier) =
      match given? p earlier e with
      | some value => some ⟨value, ((row? p earlier).getD {}).version + 1⟩
      | none => row? p earlier := by
  rw [version_row?]
  simp only [row?, values_cons]
  cases given? p earlier e with
  | none => rfl
  | some value => rfl

/-- A commit gives a value to what its transaction has written. -/
theorem length_given?_committed (p : Place) (i : Nat) (earlier : StorePast) :
    (given? p earlier (.committed i)).toList.length = if hasWritten i p earlier then 1 else 0 := by
  rw [given?, hasWritten]
  cases (unsettled i earlier).lookup p with
  | none => rfl
  | some row => rfl

/-- Every value that a row is given is one committed from outside or the one of a commit. -/
theorem length_values (p : Place) (past : StorePast) :
    (values p past).length = seeds p past + commits p past := by
  induction past with
  | nil => rfl
  | cons e earlier ih =>
      rw [values_cons, List.length_append, ih, seeds, seeds, List.countP_cons]
      cases e with
      | wrote i place row => simp [given?, commits]
      | rolledBack i => simp [given?, commits]
      | seeded place value =>
          by_cases hp : place = p
          · simp only [given?, commits, hp, if_true, Option.toList_some, List.length_singleton,
              beq_self_eq_true]
            omega
          · simp [given?, commits, hp]
      | committed i =>
          rw [length_given?_committed, commits]
          simp only [Bool.false_eq_true, if_false]
          omega

end StorePast

/-- Recording a level leaves the rows as they are. -/
theorem Store.rows_of_setLevel {s t : Store} {connection : Nat} {level : IsolationLevel}
    (h : s.setLevel connection level = .ok t) : t.rows = s.rows := by
  simp only [setLevel] at h
  cases havailable : s.available with
  | error f =>
      rw [havailable] at h
      cases h
  | ok u =>
      rw [havailable] at h
      cases h
      rfl

namespace Clients

variable {c : Clients} {client : Nat} {connection : Connection}

theorem withClient_eq (h : c.connection? client = some connection)
    (f : Connection → StoreReply × Clients) : c.withClient client f = f connection := by
  simp only [withClient, h]

theorem connection?_put (c : Clients) (client i : Nat) (connection : Connection) :
    (c.put client connection).connection? i =
      if i = client then (c.connection? i).map fun _ => connection else c.connection? i := by
  simp only [connection?, put, List.getElem?_set]
  by_cases hi : i = client
  · subst hi
    by_cases hlt : i < c.connections.length
    · simp [hlt]
    · simp [hlt]
  · rw [if_neg hi, if_neg (Ne.symm hi)]

theorem connection?_put_eq_some {i : Nat} {after k : Connection}
    (h : (c.put client after).connection? i = some k) :
    (i = client ∧ k = after) ∨ (i ≠ client ∧ c.connection? i = some k) := by
  rw [connection?_put] at h
  split at h
  · rename_i hi
    obtain ⟨k', -, hk⟩ := Option.map_eq_some_iff.1 h
    exact .inl ⟨hi, hk.symm⟩
  · rename_i hi
    exact .inr ⟨hi, h⟩

/-- What comes of a turn, with its event. -/
inductive Taken (c : Clients) : Option StoreEvent → Clients → Prop where
  /-- Nothing is told, and neither rows nor writes change. -/
  | quiet (store : Store) (hrows : store.rows = c.store.rows) : Taken c none { c with store }
  | opened (store : Store) (connection : Connection) (hrows : store.rows = c.store.rows)
    (hwrites : connection.writes = []) :
    Taken c none { store, connections := c.connections ++ [connection] }
  | seeded (place : Place) (value : Value) :
    Taken c (some (.seeded place value)) { c with store := c.store.write place value }
  | wrote (client : Nat) (connection : Connection) (place : Place) (value : Value)
    (h : c.connection? client = some connection) :
    Taken c
      (some (.wrote client place ⟨value,
        (connection.pending? place).elim (((c.store.row? place).getD {}).version + 1)
          (·.version)⟩))
      (c.put client (connection.write c.store place value).2)
  | committed (client : Nat) (connection : Connection) (store : Store)
    (h : c.connection? client = some connection)
    (hrows : store.rows = (c.store.writeAll connection.writes).rows) :
    Taken c (some (.committed client))
      ({ c with store }.put client { connection with writes := [] })
  | rolledBack (client : Nat) (connection : Connection)
    (h : c.connection? client = some connection) :
    Taken c (some (.rolledBack client)) (c.put client connection.rollback)

/-- A turn that is refused changes nothing and is no event. -/
theorem taken_of_refused {turn : StoreTurn} {reply : StoreReply} (htake : c.take turn = (reply, c))
    (hreply : reply = .unknownClient ∨ ∃ f, reply = .failed f) :
    c.Taken (c.event? turn) (c.take turn).2 := by
  have hnone : c.event? turn = none := by
    cases turn with
    | connect => rfl
    | outage on => rfl
    | setLevel client level => rfl
    | seed place value =>
        have hversion : .version _ = reply := congrArg Prod.fst htake
        rcases hreply with rfl | ⟨f, rfl⟩
        · cases hversion
        · cases hversion
    | execute client statement args =>
        rcases hreply with rfl | ⟨f, rfl⟩
        · simp only [event?, htake]
        · simp only [event?, htake]
    | commit client =>
        rcases hreply with rfl | ⟨f, rfl⟩
        · simp only [event?, htake]
        · simp only [event?, htake]
    | rollback client =>
        rcases hreply with rfl | ⟨f, rfl⟩
        · simp only [event?, htake]
        · simp only [event?, htake]
  rw [hnone, htake]
  exact .quiet c.store rfl

/-- A statement that is answered reads its row, or buffers it with the version that is told. -/
theorem taken_execute {statement : Statement} {args : List Value} {outcome : Outcome}
    {after : Connection} (h : c.connection? client = some connection)
    (hexec : connection.execute c.store statement args = .ok (outcome, after)) :
    c.Taken (c.event? (.execute client statement args))
      (c.take (.execute client statement args)).2 := by
  have htake : c.take (.execute client statement args) =
      (.outcome outcome, c.put client after) := by
    simp only [take, withClient_eq h, hexec]
  obtain ⟨-, p, hplace, hdone⟩ := Connection.execute_eq_ok.1 hexec
  cases hwrite : statement.kind.isWrite with
  | false =>
      rw [hwrite, if_neg Bool.false_ne_true] at hdone
      obtain rfl : after = connection := congrArg Prod.snd hdone
      have hput : c.put client after = { c with store := c.store } := by
        obtain ⟨hlt, rfl⟩ := List.getElem?_eq_some_iff.1 h
        simp only [put, List.set_getElem_self]
      simp only [event?, htake, hwrite, Bool.false_eq_true, if_false, hput]
      exact .quiet c.store rfl
  | true =>
      rw [hwrite, if_pos rfl] at hdone
      obtain rfl : after = (connection.write c.store p (statement.writtenValue args)).2 :=
        congrArg Prod.snd hdone
      have houtcome : outcome = (connection.write c.store p (statement.writtenValue args)).1 :=
        congrArg Prod.fst hdone
      rw [Connection.write_outcome] at houtcome
      simp only [event?, htake, hwrite, if_true, hplace, houtcome]
      exact .wrote client connection p (statement.writtenValue args) h

theorem taken_take (c : Clients) (turn : StoreTurn) : c.Taken (c.event? turn) (c.take turn).2 := by
  -- calls of clients that have not connected are all refused alike
  have hunknown : ∀ {client : Nat} {f : Connection → StoreReply × Clients},
      c.connection? client = none → c.take turn = c.withClient client f →
      c.Taken (c.event? turn) (c.take turn).2 := by
    intro client f hnone htake
    refine taken_of_refused (htake.trans ?_) (.inl rfl)
    simp only [withClient, hnone]
  cases turn with
  | connect => exact .opened _ _ rfl rfl
  | seed place value => exact .seeded place value
  | outage on => exact .quiet { c.store with unavailable := on } rfl
  | execute client statement args =>
      cases hclient : c.connection? client with
      | none => exact hunknown hclient rfl
      | some connection =>
          cases hexec : connection.execute c.store statement args with
          | error f =>
              refine taken_of_refused ?_ (.inr ⟨f, rfl⟩)
              simp only [take, withClient_eq hclient, hexec]
          | ok answer => exact taken_execute hclient hexec
  | commit client =>
      cases hclient : c.connection? client with
      | none => exact hunknown hclient rfl
      | some connection =>
          cases hcommit : connection.commit c.store with
          | error f =>
              refine taken_of_refused ?_ (.inr ⟨f, rfl⟩)
              simp only [take, withClient_eq hclient, hcommit]
          | ok done =>
              have htake : c.take (.commit client) =
                  (.done, { c with store := done.2 }.put client done.1) := by
                simp only [take, withClient_eq hclient, hcommit]
              obtain ⟨-, hafter, hstore⟩ := Connection.commit_eq_ok.1 hcommit
              simp only [event?, htake, hafter, hstore]
              exact .committed client connection _ hclient rfl
  | rollback client =>
      cases hclient : c.connection? client with
      | none => exact hunknown hclient rfl
      | some connection =>
          have htake : c.take (.rollback client) = (.done, c.put client connection.rollback) := by
            simp only [take, withClient_eq hclient]
          simp only [event?, htake]
          exact .rolledBack client connection hclient
  | setLevel client level =>
      cases hclient : c.connection? client with
      | none => exact hunknown hclient rfl
      | some connection =>
          cases hlevel : c.store.setLevel connection.id level with
          | error f =>
              refine taken_of_refused ?_ (.inr ⟨f, rfl⟩)
              simp only [take, withClient_eq hclient, hlevel]
          | ok store =>
              have htake : c.take (.setLevel client level) = (.done, { c with store }) := by
                simp only [take, withClient_eq hclient, hlevel]
              rw [htake]
              exact .quiet store (Store.rows_of_setLevel hlevel)

/-- A commit is refused by a store that is unavailable, and by no other. A commit that is refused
leaves everything as it is, the buffered writes with it. -/
theorem take_commit (h : c.connection? client = some connection) :
    if c.store.unavailable then c.take (.commit client) = (.failed .storeUnavailable, c)
    else (c.take (.commit client)).1 = .done := by
  cases hs : c.store.unavailable with
  | true =>
      have hcommit : connection.commit c.store = .error .storeUnavailable := by
        simp only [Connection.commit, Store.available, hs, if_true, bind, Except.bind]
      rw [if_pos rfl]
      simp only [take, withClient_eq h, hcommit]
  | false =>
      obtain ⟨done, hcommit⟩ : ∃ done, connection.commit c.store = .ok done :=
        ⟨_, Connection.commit_eq_ok.2 ⟨hs, rfl, rfl⟩⟩
      rw [if_neg Bool.false_ne_true]
      simp only [take, withClient_eq h, hcommit]

/-- A read is answered with the client's own write, or else with the committed row. -/
theorem take_read {statement : Statement} {args : List Value} {p : Place}
    (h : c.connection? client = some connection) (hread : statement.kind.isWrite = false)
    (hs : c.store.unavailable = false) (hp : c.store.placeOf statement args = .ok p) :
    (c.take (.execute client statement args)).1 =
      .outcome (.ofRow ((connection.pending? p).or (c.store.row? p))) := by
  have hexec : connection.execute c.store statement args =
      .ok (.ofRow ((connection.pending? p).or (c.store.row? p)), connection) := by
    refine Connection.execute_eq_ok.2 ⟨hs, p, hp, ?_⟩
    rw [hread, if_neg Bool.false_ne_true, Connection.read_eq]
  simp only [take, withClient_eq h, hexec]

/-- A write that is answered is told. -/
theorem event?_write {statement : Statement} {args : List Value} {outcome : Outcome}
    (hwrite : statement.kind.isWrite = true)
    (hreply : (c.take (.execute client statement args)).1 = .outcome outcome) :
    ∃ p version, c.store.placeOf statement args = .ok p ∧ outcome.version = some version ∧
      c.event? (.execute client statement args) =
        some (.wrote client p ⟨statement.writtenValue args, version⟩) := by
  cases hclient : c.connection? client with
  | none =>
      simp only [take, withClient, hclient] at hreply
      cases hreply
  | some connection =>
      cases hexec : connection.execute c.store statement args with
      | error f =>
          simp only [take, withClient_eq hclient, hexec] at hreply
          cases hreply
      | ok answer =>
          have houtcome : .outcome answer.1 = StoreReply.outcome outcome := by
            simpa only [take, withClient_eq hclient, hexec] using hreply
          obtain ⟨-, p, hplace, hdone⟩ := Connection.execute_eq_ok.1 hexec
          rw [hwrite, if_pos rfl] at hdone
          obtain ⟨version, hversion⟩ : ∃ version, outcome.version = some version := by
            rw [← StoreReply.outcome.inj houtcome, show answer.1 = _ from congrArg Prod.fst hdone,
              Connection.write_outcome]
            exact ⟨_, rfl⟩
          refine ⟨p, version, hplace, hversion, ?_⟩
          simp only [event?, hreply, hwrite, if_true, hplace, hversion]

end Clients

/-- Clients with the events that have come of their calls. -/
structure Chronicle where
  clients : Clients
  past : StorePast := []

namespace Chronicle

def take (h : Chronicle) (turn : StoreTurn) : Chronicle where
  clients := (h.clients.take turn).2
  past := (h.clients.event? turn).toList ++ h.past

/-- What some turns come to at an empty store. -/
def run (keys : KeyRule) (turns : List StoreTurn) : Chronicle :=
  turns.foldl take { clients := { store := { keys } } }

/-- The store has committed the rows that the events tell, and every connection has buffered the
unsettled writes of its client, each row once. -/
structure Faithful (h : Chronicle) : Prop where
  row : ∀ p, h.clients.store.row? p = StorePast.row? p h.past
  pending : ∀ i connection, h.clients.connection? i = some connection → ∀ p,
    connection.pending? p = (StorePast.unsettled i h.past).lookup p
  sorted : ∀ i connection, h.clients.connection? i = some connection →
    Ordered.Sorted placeLt connection.writes
  unknown : ∀ i, h.clients.connection? i = none → StorePast.unsettled i h.past = []

section Turns

open StorePast

variable {c c' : Clients} {past past' : StorePast} {event : Option StoreEvent} {client : Nat}
  {connection after : Connection} {store : Store}

/-- One client has made a call. -/
theorem Faithful.put (h : Faithful ⟨c, past⟩) (hclient : c.connection? client = some connection)
    (hrow : ∀ p, store.row? p = StorePast.row? p past')
    (hothers : ∀ i, i ≠ client → unsettled i past' = unsettled i past)
    (hpending : ∀ p, after.pending? p = (unsettled client past').lookup p)
    (hsorted : Ordered.Sorted placeLt after.writes) :
    Faithful ⟨{ c with store }.put client after, past'⟩ where
  row := hrow
  pending i k hk := by
    rcases Clients.connection?_put_eq_some hk with ⟨rfl, rfl⟩ | ⟨hi, hk⟩
    · exact hpending
    · rw [hothers i hi]
      exact h.pending i k hk
  sorted i k hk := by
    rcases Clients.connection?_put_eq_some hk with ⟨-, rfl⟩ | ⟨-, hk⟩
    · exact hsorted
    · exact h.sorted i k hk
  unknown i hi := by
    rw [Clients.connection?_put] at hi
    split at hi
    · rename_i he
      subst he
      cases hclient.symm.trans (Option.map_eq_none_iff.1 hi)
    · rename_i hne
      exact (hothers i hne).trans (h.unknown i hi)

/-- What comes of a turn is told by its event. -/
theorem Faithful.taken (h : Faithful ⟨c, past⟩) (htaken : c.Taken event c') :
    Faithful ⟨c', event.toList ++ past⟩ := by
  cases htaken with
  | quiet store hrows =>
      refine ⟨fun p => ?_, h.pending, h.sorted, h.unknown⟩
      exact (congrArg (List.lookup p) hrows).trans (h.row p)
  | opened store connection hrows hwrites =>
      -- the new connection stands behind the others, at a place that no event has named
      have hopened : ∀ {i k}, (c.connections ++ [connection])[i]? = some k →
          c.connection? i = some k ∨ (c.connection? i = none ∧ k = connection) := by
        intro i k hk
        rw [List.getElem?_append] at hk
        split at hk
        · exact .inl hk
        · rename_i hlen
          refine .inr ⟨List.getElem?_eq_none (Nat.le_of_not_lt hlen), ?_⟩
          exact (List.mem_singleton.1 (List.mem_of_getElem? hk))
      refine ⟨fun p => (congrArg (List.lookup p) hrows).trans (h.row p), ?_, ?_, ?_⟩
      · intro i k hk p
        rcases hopened hk with hk | ⟨hnone, rfl⟩
        · exact h.pending i k hk p
        · change k.writes.lookup p = (unsettled i past).lookup p
          rw [hwrites, show unsettled i past = [] from h.unknown i hnone]
      · intro i k hk
        rcases hopened hk with hk | ⟨-, rfl⟩
        · exact h.sorted i k hk
        · rw [hwrites]
          exact List.Pairwise.nil
      · intro i hi
        refine h.unknown i (List.getElem?_eq_none ?_)
        exact (Nat.le_add_right _ _).trans
          (List.length_append ▸ List.getElem?_eq_none_iff.1 hi)
  | seeded place value =>
      refine ⟨fun p => ?_, h.pending, h.sorted, h.unknown⟩
      change (c.store.write place value).row? p = StorePast.row? p (.seeded place value :: past)
      rw [Store.row?_write, row?_cons]
      by_cases hp : p = place
      · subst hp
        simp only [given?, if_true]
        rw [← h.row p]
      · simp only [given?, if_neg hp, if_neg (Ne.symm hp)]
        exact h.row p
  | wrote client connection place value hclient =>
      refine h.put hclient ?_ ?_ ?_ ?_
      · intro p
        exact h.row p
      · intro i hi
        exact if_neg (Ne.symm hi)
      · intro p
        change _ = (unsettled client (.wrote client place _ :: past)).lookup p
        rw [Connection.pending?_write, unsettled_wrote, if_pos rfl, List.lookup_cons]
        by_cases hp : p = place
        · rw [if_pos hp, beq_iff_eq.2 hp]
        · rw [if_neg hp, beq_eq_false_iff_ne.2 hp]
          exact h.pending client connection hclient p
      · exact Connection.sorted_write (h.sorted client connection hclient) c.store place value
  | committed client connection store hclient hrows =>
      have hpending := h.pending client connection hclient
      refine h.put hclient ?_ ?_ ?_ List.Pairwise.nil
      · intro p
        -- each row is buffered once, so what is found in the buffer is what the commit writes
        have hwritten : store.row? p = (c.store.writeAll connection.writes).row? p :=
          congrArg (List.lookup p) hrows
        rw [hwritten, Store.row?_writeAll (h.sorted client connection hclient).nodup_keys,
          show connection.writes.lookup p = _ from hpending p,
          show c.store.row? p = _ from h.row p]
        change _ = StorePast.row? p (.committed client :: past)
        rw [row?_cons, given?]
        cases (unsettled client past).lookup p with
        | none => rfl
        | some row => rfl
      · intro i hi
        exact if_neg (Ne.symm hi)
      · intro p
        change _ = (unsettled client (.committed client :: past)).lookup p
        rw [unsettled_committed, if_pos rfl]
        rfl
  | rolledBack client connection hclient =>
      refine h.put hclient (fun p => ?_) ?_ ?_ List.Pairwise.nil
      · exact h.row p
      · intro i hi
        exact if_neg (Ne.symm hi)
      · intro p
        change _ = (unsettled client (.rolledBack client :: past)).lookup p
        rw [unsettled_rolledBack, if_pos rfl]
        rfl

theorem Faithful.take {h : Chronicle} (hh : h.Faithful) (turn : StoreTurn) :
    (h.take turn).Faithful :=
  hh.taken (h.clients.taken_take turn)

end Turns

theorem faithful_empty (keys : KeyRule) : Faithful { clients := { store := { keys } } } where
  row _ := rfl
  pending _ _ hk := nomatch List.mem_of_getElem? hk
  sorted _ _ hk := nomatch List.mem_of_getElem? hk
  unknown _ _ := rfl

/-- Whatever turns are taken, the events tell what is buffered and committed. -/
theorem faithful_run (keys : KeyRule) (turns : List StoreTurn) : (run keys turns).Faithful := by
  have hfold : ∀ h : Chronicle, h.Faithful → (turns.foldl take h).Faithful := by
    induction turns with
    | nil => exact fun h hh => hh
    | cons turn rest ih => exact fun h hh => ih _ (hh.take turn)
  exact hfold _ (faithful_empty keys)

/-- No write is lost, and none counts twice: a row that is committed has the value that it was
given last, by a seed or as the last write of a transaction that has committed, and its version
counts its seeds and the commits of transactions that have written it. Connections have buffered
what their clients have not settled, which a commit that is refused leaves so, and a client reads
its own last write, or else the committed row. -/
theorem rows_account (keys : KeyRule) (turns : List StoreTurn) :
    let h := run keys turns
    let c := h.clients
    (∀ p, c.store.row? p = (StorePast.values p h.past).head?.map
          (⟨·, StorePast.seeds p h.past + StorePast.commits p h.past⟩) ∧
        (c.store.row? p = none ↔
          StorePast.seeds p h.past = 0 ∧ StorePast.commits p h.past = 0)) ∧
      ∀ client connection, c.connection? client = some connection →
        (∀ p, connection.pending? p = (StorePast.unsettled client h.past).lookup p) ∧
        (if c.store.unavailable then c.take (.commit client) = (.failed .storeUnavailable, c)
          else (c.take (.commit client)).1 = .done) ∧
        ∀ statement args,
          (statement.kind.isWrite = true → ∀ outcome,
            (c.take (.execute client statement args)).1 = .outcome outcome →
            ∃ p version, c.store.placeOf statement args = .ok p ∧
              outcome.version = some version ∧
              (h.take (.execute client statement args)).past =
                .wrote client p ⟨statement.writtenValue args, version⟩ :: h.past) ∧
          (statement.kind.isWrite = false → c.store.unavailable = false → ∀ p,
            c.store.placeOf statement args = .ok p →
            (c.take (.execute client statement args)).1 =
              .outcome (.ofRow
                (((StorePast.unsettled client h.past).lookup p).or (c.store.row? p)))) := by
  intro h c
  have hfaithful : h.Faithful := faithful_run keys turns
  refine ⟨fun p => ?_, fun client connection hclient => ⟨?_, ?_, fun statement args => ⟨?_, ?_⟩⟩⟩
  · have hrow : c.store.row? p = StorePast.row? p h.past := hfaithful.row p
    rw [hrow, StorePast.row?, StorePast.length_values]
    refine ⟨rfl, ?_⟩
    rw [Option.map_eq_none_iff, List.head?_eq_none_iff, ← List.length_eq_zero_iff,
      StorePast.length_values]
    exact Nat.add_eq_zero_iff
  · exact hfaithful.pending client connection hclient
  · exact Clients.take_commit hclient
  · intro hwrite outcome hreply
    obtain ⟨p, version, hplace, hversion, hevent⟩ := Clients.event?_write hwrite hreply
    refine ⟨p, version, hplace, hversion, ?_⟩
    simp only [take]
    rw [show h.clients.event? _ = _ from hevent]
    rfl
  · intro hread hs p hplace
    rw [Clients.take_read hclient hread hs hplace,
      hfaithful.pending client connection hclient p]

def writeRow : Statement := { kind := .write, relation := "x", bindings := [⟨1, "id"⟩] }

def readRow : Statement := { kind := .read, relation := "x", bindings := [⟨0, "id"⟩] }

/-- Two clients write a row. One of them commits it; the other one writes it twice and fails to
commit while the store is unavailable. -/
def contended : List StoreTurn :=
  [.connect, .connect, .execute 0 writeRow [.int 50, .int 1], .execute 1 writeRow [.int 40, .int 1],
    .execute 1 writeRow [.int 41, .int 1], .commit 0, .outage true, .commit 1, .outage false]

theorem contended_account :
    let c := (run RowKey.standard contended).clients
    c.store.row? ("x", 1) = some ⟨.int 50, 1⟩ ∧ c.store.row? ("x", 2) = none ∧
      (c.take (.commit 1)).1 = .done ∧
      (c.take (.execute 1 readRow [.int 1])).1 = .outcome (.ofRow (some ⟨.int 41, 1⟩)) := by
  intro c
  obtain ⟨hrows, hclients⟩ := rows_account RowKey.standard contended
  obtain ⟨connection, hconnection⟩ : ∃ connection, c.connection? 1 = some connection := ⟨_, rfl⟩
  obtain ⟨-, hcommit, hcalls⟩ := hclients 1 connection hconnection
  refine ⟨(hrows ("x", 1)).1.trans ?_, (hrows ("x", 2)).2.2 ?_, ?_, ?_⟩
  · decide +kernel
  · decide +kernel
  · exact hcommit
  · exact (hcalls readRow [.int 1]).2 rfl rfl ("x", 1) rfl

end Chronicle

end LiveIsolation
