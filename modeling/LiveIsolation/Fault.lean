import LiveIsolation.Conflict
import LiveIsolation.Text.Blank

/-!
# Faults

Every operation that can fail returns a `Fault`: a cause together with what belongs to it.
A fault falls into one of six classes, which tell a caller what to do about it; its reason
and its full text are functions of the cause.
-/

namespace LiveIsolation

/-- What a caller does about a fault: retry the transaction (`conflict`), mend a template
(`registration`), give the transaction up (`store`), report an error of the program
(`internal`), or mend the order (`invalidState`) or the arguments (`invalidInput`) of calls. -/
inductive FaultClass where
  | conflict
  | registration
  | store
  | internal
  | invalidState
  | invalidInput
  deriving DecidableEq, Repr, Inhabited

/-- The holder of a lock as a fault reports it. -/
abbrev Holding := Option LockKind × Nat

inductive Fault where
  /-- A fault that a front end, a store or a key rule reports in its own words. -/
  | reported (cls : FaultClass) (text : String)
  /-- Validation found these conflicts. -/
  | conflicts (found : List Conflict)
  | blankTransactionName
  | transactionExists (name : String)
  | transactionMissing (name : String)
  | blankRelation (transaction : String)
  | sqlRefused (cause : Fault)
  | emptyTransaction (name : String)
  | transactionFull (name : String) (capacity : Nat)
  | unknownProtocol (text : String)
  | missingArgument (placeholder : Nat) (column : String) (supplied : Nat)
  | noBuckets
  | noPollInterval
  | configSyntax
  | configFile (path : String) (cause : Fault)
  | unknownTransaction (name : String)
  | missingStatement (transaction : String) (index : Nat)
  | unknownTemplate (template : Nat)
  | missingTemplateStatement (template index : Nat)
  | releaseMismatch (kind : LockKind) (holding : Holding)
  | unknownRelation (relation : String)
  | unknownKey (relation : String) (key : RowKey)
  | configUnreadable (path error : String)
  | configUnwritable (path error : String)
  | rejectedWithoutConflict
  | storeUnavailable
  | workerExists (worker : Nat)
  | workerMissing (worker : Nat)
  | workerClosed (worker : Nat)
  | boundElsewhere (bound asked : String)
  deriving DecidableEq, Repr

namespace Fault

def holdingText : Holding → String
  | (holder, count) =>
    (match holder with
      | none => "None"
      | some kind => kind.name) ++ " with count " ++ toString count

def workerName (worker : Nat) : String := "worker-" ++ toString worker

def cls : Fault → FaultClass
  | .reported c _ => c
  | .conflicts _ => .conflict
  | .blankTransactionName | .transactionExists _ | .transactionMissing _ | .blankRelation _
  | .sqlRefused _ | .emptyTransaction _ | .transactionFull .. => .registration
  | .unknownProtocol _ | .missingArgument .. | .noBuckets | .noPollInterval | .configSyntax
  | .configFile .. | .unknownTransaction _ | .missingStatement .. => .invalidInput
  | .unknownTemplate _ | .missingTemplateStatement .. | .releaseMismatch ..
  | .unknownRelation _ | .unknownKey .. | .configUnreadable .. | .configUnwritable ..
  | .rejectedWithoutConflict => .internal
  | .storeUnavailable => .store
  | .workerExists _ | .workerMissing _ | .workerClosed _ | .boundElsewhere .. => .invalidState

end Fault

/-- The words before the reason of a fault. -/
def FaultClass.title : FaultClass → String
  | .conflict => "validation conflict: "
  | .registration => "registration error: "
  | .store => "store error: "
  | .internal => "internal error: "
  | .invalidState => "invalid state: "
  | .invalidInput => "invalid input: "

namespace Fault

def reason : Fault → String
  | .reported _ text => text
  | .conflicts found => "; ".intercalate (found.map Conflict.describe)
  | .blankTransactionName => "transaction name must not be empty"
  | .transactionExists n => "transaction '" ++ n ++ "' is already registered"
  | .transactionMissing n => "transaction '" ++ n ++ "' is not registered"
  | .blankRelation n => "statement for '" ++ n ++ "' has no relation"
  | .sqlRefused cause => "rewrite failed: " ++ cause.cls.title ++ cause.reason
  | .emptyTransaction n => "transaction '" ++ n ++ "' has no statements"
  | .transactionFull n capacity =>
    "template '" ++ n ++ "' already holds the maximum of " ++ toString capacity ++ " statements"
  | .unknownProtocol t =>
    "unknown isolation protocol '" ++ t ++ "', expected \"ser\", \"si\" or \"rc\""
  | .missingArgument p c n =>
    "placeholder " ++ toString p ++ " for column '" ++ c ++ "' missing: " ++ toString n ++
      " argument(s) supplied"
  | .noBuckets => "bucket_count must be greater than zero"
  | .noPollInterval => "switch.poll_interval_ms must be greater than zero"
  | .configSyntax => "Failed to parse config: not a valid configuration"
  | .configFile path cause => "config file '" ++ path ++ "': " ++ cause.reason
  | .unknownTransaction n => "unknown transaction '" ++ n ++ "'"
  | .missingStatement n i => "transaction '" ++ n ++ "' has no statement " ++ toString i
  | .unknownTemplate t => "unknown template T" ++ toString t
  | .missingTemplateStatement t i =>
    "template T" ++ toString t ++ " has no statement " ++ toString i
  | .releaseMismatch kind holding =>
    "release of " ++ kind.name ++ " lock held as " ++ holdingText holding
  | .unknownRelation r => "unknown relation '" ++ r ++ "'"
  | .unknownKey r k => "release of unknown key " ++ toString k.toNat ++ " in relation '" ++ r ++ "'"
  | .configUnreadable path error => "Failed to read config file '" ++ path ++ "': " ++ error
  | .configUnwritable path error =>
    "Failed to write default config file '" ++ path ++ "': " ++ error
  | .rejectedWithoutConflict => "rejected a transaction with no conflicts"
  | .storeUnavailable => "store unavailable"
  | .workerExists w => workerName w ++ " is already registered"
  | .workerMissing w => workerName w ++ " is not registered"
  | .workerClosed w => workerName w ++ " is closed"
  | .boundElsewhere bound asked =>
    "open transaction is bound to '" ++ bound ++ "', not '" ++ asked ++ "'"

def message (f : Fault) : String := f.cls.title ++ f.reason

def isConflict (f : Fault) : Bool := f.cls == .conflict

/-- The open transaction is lost: validation turned it away or the store failed. -/
def losesTransaction (f : Fault) : Bool := f.cls == .conflict || f.cls == .store

end Fault

/-- Reads a protocol name in any mixture of cases. -/
def Protocol.parse (text : String) : Except Fault Protocol :=
  match Protocol.ofName? (Text.lowerAscii text) with
  | some p => .ok p
  | none => .error (.unknownProtocol (Text.lowerAscii text))

end LiveIsolation
