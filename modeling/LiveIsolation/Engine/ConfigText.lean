import LiveIsolation.Engine.Config
import LiveIsolation.Toml.Reader

/-!
# Configuration files

The settings of an engine as a TOML document. A setting that is absent has its default, and
one that is unknown is passed over. A table of settings may also be written as an array that
gives the settings in order.
-/

namespace LiveIsolation

namespace Toml

/-- What a table or an array gives for the setting with a name and a place. -/
def settings? : Toml → Option (String → Nat → Option Toml)
  | .table _ entries => some fun name _ => entries.lookup name
  | .array elements | .tables elements => some fun _ place => elements[place]?
  | .date => some fun _ _ => none
  | _ => none

end Toml

namespace EngineConfig

/-- A number below a bound, or a default where there is none. -/
def natSetting (bound default : Nat) : Option Toml → Option Nat
  | none => some default
  | some (.integer n) => if 0 ≤ n ∧ n < bound then some n.toNat else none
  | some _ => none

def textSetting (default : String) : Option Toml → Option String
  | none => some default
  | some (.text s) => some s
  | some _ => none

/-- Settings that form a group of their own, or the default group where there are none. -/
def group {α : Type} (default : α) (read : (String → Nat → Option Toml) → Option α) :
    Option Toml → Option α
  | none => some default
  | some t => t.settings? >>= read

def readWait (at? : String → Nat → Option Toml) : Option WaitPolicy := do
  return { retries := ← natSetting (Nat.pow 2 32) 64 (at? "max_retries" 0)
           intervalMs := ← natSetting (Nat.pow 2 64) 1 (at? "retry_interval_ms" 1) }

def readSwitch (at? : String → Nat → Option Toml) : Option SwitchPace := do
  return { pollMs := ← natSetting (Nat.pow 2 64) 1 (at? "poll_interval_ms" 0)
           stallMs := ← natSetting (Nat.pow 2 64) 1000 (at? "stall_warn_ms" 1) }

def read (at? : String → Nat → Option Toml) : Option EngineConfig := do
  return {
    initialProtocol := ← textSetting "ser" (at? "initial_protocol" 0)
    buckets := ← natSetting (Nat.pow 2 64) 1024 (at? "bucket_count" 1)
    pruneThreshold := ← natSetting (Nat.pow 2 64) 256 (at? "prune_threshold" 2)
    sampleEvery := ← natSetting (Nat.pow 2 64) 0 (at? "sample_every" 3)
    lockWait := ← group {} readWait (at? "lock_wait" 4)
    switch := ← group {} readSwitch (at? "switch" 5) }

/-- Reads and checks a configuration. -/
def ofToml (s : String) : Except Fault EngineConfig :=
  match Toml.parse? s >>= group {} read ∘ some with
  | none => .error .configSyntax
  | some c => c.validate.map fun _ => c

/-- The configuration file that holds the defaults. -/
def defaultText : String :=
  "\n".intercalate [
    "# Tailor engine configuration",
    "#",
    "# Protocol at startup: \"ser\" (default), \"si\" or \"rc\"",
    "#   \"ser\" = store-native serializable, no validation",
    "#   \"si\"  = snapshot isolation plus commit-time validation",
    "#   \"rc\"  = read committed plus commit-time validation",
    "initial_protocol = \"ser\"",
    "",
    "# Lock-table buckets per relation (default: 1024)",
    "bucket_count = 1024",
    "",
    "# Bucket size above which uncontended stale entries are pruned (default: 256)",
    "prune_threshold = 256",
    "",
    "# Validate every statement of every N-th transaction (default: 0 = off)",
    "sample_every = 0",
    "",
    "[lock_wait]",
    "# Waits before a blocked lock request aborts (default: 64)",
    "max_retries = 64",
    "# Longest single wait for a release, in milliseconds (default: 1)",
    "retry_interval_ms = 1",
    "",
    "[switch]",
    "# Barrier wait slice while a protocol switch is in progress (default: 1)",
    "poll_interval_ms = 1",
    "# Log a warning when a barrier has waited this long (default: 1000)",
    "stall_warn_ms = 1000",
    ""]

end EngineConfig

/-- What is found at a path. -/
inductive PathEntry where
  | absent
  | directory
  | file (content : List UInt8)
  deriving DecidableEq, Repr

namespace PathEntry

def ofText (s : String) : PathEntry := .file s.toUTF8.toList

/-- The text of a file, or the reason why there is none. -/
def text : PathEntry → Except String String
  | .absent => .error "No such file or directory (os error 2)"
  | .directory => .error "Is a directory (os error 21)"
  | .file content =>
    match String.fromUTF8? ⟨content.toArray⟩ with
    | some s => .ok s
    | none => .error "stream did not contain valid UTF-8"

/-- Loads a configuration from what is found at a path. -/
def loadConfig (p : PathEntry) (path : String) : Except Fault EngineConfig :=
  match p.text with
  | .error e => .error (.configUnreadable path e)
  | .ok s =>
    match EngineConfig.ofToml s with
    | .ok c => .ok c
    | .error e => .error (if e.cls = .invalidInput then .configFile path e else e)

/-- Writes the defaults where nothing is found. Without a directory to hold the file there is
no place to write to. -/
def writeDefault (p : PathEntry) (path : String) (hasDirectory : Bool) :
    Except Fault PathEntry :=
  match p with
  | .absent =>
    if hasDirectory then .ok (.ofText EngineConfig.defaultText)
    else .error (.configUnwritable path "No such file or directory (os error 2)")
  | p => .ok p

end PathEntry

end LiveIsolation
