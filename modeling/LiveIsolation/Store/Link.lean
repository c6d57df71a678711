import LiveIsolation.Store.Connection

/-!
# Links

A link joins a worker to its connection. It can be told to fail certain calls before they
reach the connection, to report another version than the store's, and to hold commits at a
gate until a permit comes. A link that is told nothing passes every call on.
-/

namespace LiveIsolation

/-- The calls that a link can be told to fail. -/
inductive StoreCall where
  | execute
  | commit
  | rollback
  | isolation
  | fetch
  deriving DecidableEq, Repr

def StoreCall.name : StoreCall → String
  | .execute => "execute"
  | .commit => "commit"
  | .rollback => "rollback"
  | .isolation => "isolation"
  | .fetch => "fetch"

structure Link where
  connection : Connection
  failing : List StoreCall := []
  /-- The version that is reported in place of the store's. -/
  reported : Option (Option Nat) := none
  /-- The permits at the gate; none if there is no gate. -/
  permits : Option Nat := none
  deriving DecidableEq, Repr

namespace Link

/-- A call gets through to the connection. -/
def through (l : Link) (call : StoreCall) : Except Fault Unit :=
  if l.failing.contains call then .error (.reported .store ("injected " ++ call.name))
  else .ok ()

def execute (l : Link) (s : Store) (statement : Statement) (args : List Value) :
    Except Fault (Outcome × Link) := do
  l.through .execute
  let (outcome, connection) ← l.connection.execute s statement args
  return ({ outcome with version := l.reported.getD outcome.version }, { l with connection })

/-- Takes a permit for a commit, if the gate asks for one and has one. -/
def passGate? (l : Link) : Option Link :=
  match l.permits with
  | none => some l
  | some 0 => none
  | some (n + 1) => some { l with permits := some n }

/-- One more commit may pass the gate. -/
def openGate (l : Link) : Link := { l with permits := l.permits.map (· + 1) }

def commit (l : Link) (s : Store) : Except Fault (Link × Store) := do
  l.through .commit
  let (connection, s) ← l.connection.commit s
  return ({ l with connection }, s)

def rollback (l : Link) : Except Fault Unit × Link :=
  match l.through .rollback with
  | .ok () => (.ok (), { l with connection := l.connection.rollback })
  | .error e => (.error e, l)

def setLevel (l : Link) (s : Store) (level : IsolationLevel) : Except Fault Store := do
  l.through .isolation
  s.setLevel l.connection.id level

def fetch (l : Link) (s : Store) (place : Place) : Except Fault (Option Nat) := do
  l.through .fetch
  s.fetch place

theorem through_nil {l : Link} (h : l.failing = []) (call : StoreCall) :
    l.through call = .ok () := by
  simp [through, h]

end Link

end LiveIsolation
